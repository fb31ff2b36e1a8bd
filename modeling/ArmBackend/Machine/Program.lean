import ArmBackend.Machine.Instr
import ArmBackend.Text.Asciz

/-!
# Assembly programs

A program has sections for its string literals, for its variables and for the code
of its functions, and is listed in this order.
-/

namespace ArmBackend.Machine

structure Function where
  name : String
  frameSize : Nat := 0
  leaf : Bool := false
  /-- all lines from the prologue to the last epilogue -/
  body : List Instr := []
deriving DecidableEq

namespace Function

def instrCount (function : Function) : Nat :=
  function.body.countP Instr.isMachine

def remark (function : Function) : String :=
  "frame: " ++ toString function.frameSize ++ " bytes" ++ if function.leaf then ", leaf" else ""

def lines (function : Function) : List Instr :=
  [.directive ".align 2",
    .directive (".global " ++ function.name),
    .directive (".type " ++ function.name ++ ", %function"),
    .label function.name,
    .comment function.remark] ++
    function.body ++
    [.directive (".size " ++ function.name ++ ", .-" ++ function.name)]

end Function

structure StringObject where
  label : String
  literal : String
deriving DecidableEq

namespace StringObject

def lines (object : StringObject) : List Instr :=
  [.label object.label, .directive (".asciz \"" ++ Text.asciz object.literal ++ "\"")]

end StringObject

/-- Memory that starts out as zeros. -/
structure DataObject where
  symbol : String
  bytes : Nat
deriving DecidableEq

namespace DataObject

def lines (object : DataObject) : List Instr :=
  [.label object.symbol, .directive (".zero " ++ toString object.bytes)]

end DataObject

structure Program where
  strings : List StringObject := []
  data : List DataObject := []
  functions : List Function := []
deriving DecidableEq

namespace Program

def function? (program : Program) (name : String) : Option Function :=
  program.functions.find? fun function => function.name == name

def instrCount (program : Program) : Nat :=
  program.functions.foldr (fun function count => function.instrCount + count) 0

/-- All lines; a section without objects is left out. -/
def lines (program : Program) : List Instr :=
  [.directive ".arch armv8-a"] ++
    (if program.strings.isEmpty then []
      else .directive ".section .rodata" :: program.strings.flatMap StringObject.lines) ++
    (if program.data.isEmpty then []
      else .directive ".data" :: .directive ".align 3" :: program.data.flatMap DataObject.lines) ++
    .directive ".text" :: program.functions.flatMap Function.lines

def text (program : Program) : String :=
  Instr.listing program.lines

end Program

end ArmBackend.Machine
