import ArmBackend.Ir.Instr
import ArmBackend.Text.Quoted

/-!
# Three-address programs

A program is a list of functions, the variables that they share, and the table of
string literals.
-/

namespace ArmBackend.Ir

structure Function where
  name : String
  parameters : List Operand := []
  result : DataType := .int
  locals : List Operand := []
  code : List Instr := []
  /-- the bytes of its frame, once that is laid out -/
  frameSize : Nat := 0
deriving DecidableEq

namespace Function

def addLocal (locals : List Operand) (added : Operand) : List Operand :=
  if locals.any fun recorded => decide (recorded.location? = added.location?) then locals
  else locals ++ [added]

def last? (function : Function) : Option Instr :=
  function.code.getLast?

/-- A leaf calls no function, not even to print. -/
def isLeaf (function : Function) : Bool :=
  !function.code.any fun instr =>
    instr.opcode == .call || instr.opcode == .print || instr.opcode == .println

def position? (function : Function) (place : Location) : Option Nat :=
  function.parameters.findIdx? fun parameter => decide (parameter.location? = some place)

def typedTexts (operands : List Operand) : String :=
  String.intercalate ", " (operands.map fun operand => operand.text ++ ": " ++ operand.type.name)

def text (function : Function) : String :=
  "function " ++ function.name ++ "(" ++ typedTexts function.parameters ++ ") -> " ++
    function.result.name ++ "\n" ++
    (if function.locals.isEmpty then "  locals:\n"
      else "  locals: " ++ typedTexts function.locals ++ "\n") ++
    String.join (function.code.map fun instr => instr.text ++ "\n")

end Function

/-- A variable of the whole program; arrays have a count of elements. -/
structure Global where
  name : String
  type : DataType
  count : Option Nat := none
deriving DecidableEq

namespace Global

/-- The slots of eight bytes that it fills. -/
def slots (global : Global) : Nat :=
  global.count.getD 1

def text (global : Global) : String :=
  "  @" ++ global.name ++ ": " ++ global.type.name ++
    match global.count with
    | some count => "[" ++ toString count ++ "]"
    | none => ""

end Global

/-- An index that numbers names as they stand in a list still does so when a new one is put at the
end of the list. -/
theorem lookup_appended {names : List String} {index : List (String × Nat)}
    (agrees : ∀ name, index.lookup name = names.findIdx? (· == name)) {added : String}
    (absent : index.lookup added = none) (name : String) :
    List.lookup name ((added, names.length) :: index) =
      (names ++ [added]).findIdx? (· == name) := by
  rw [List.lookup_cons, List.findIdx?_append, agrees]
  rw [agrees] at absent
  by_cases same : name = added
  · simp [same, absent]
  · simp [beq_false_of_ne same, Ne.symm same]

/-- The string literals of a program, each once; its place is its id.  The index gives the ids by
literal, without a search. -/
structure StringTable where
  entries : List String
  index : List (String × Nat)
  agrees : ∀ literal, index.lookup literal = entries.findIdx? (· == literal)
deriving DecidableEq

namespace StringTable

def empty : StringTable :=
  ⟨[], [], fun _ => rfl⟩

/-- The id of a literal; a new literal is put at the end. -/
def intern (table : StringTable) (literal : String) : StringTable × Nat :=
  match found : table.index.lookup literal with
  | some id => (table, id)
  | none =>
    (⟨table.entries ++ [literal], (literal, table.entries.length) :: table.index,
      lookup_appended table.agrees found⟩, table.entries.length)

def get? (table : StringTable) (id : Nat) : Option String :=
  table.entries[id]?

def size (table : StringTable) : Nat :=
  table.entries.length

def isEmpty (table : StringTable) : Bool :=
  table.entries.isEmpty

def toList (table : StringTable) : List (Nat × String) :=
  table.entries.zipIdx.map fun entry => (entry.2, entry.1)

end StringTable

structure Program where
  functions : List Function := []
  globals : List Global := []
  strings : StringTable := .empty
deriving DecidableEq

namespace Program

def empty : Program := {}

def function? (program : Program) (name : String) : Option Function :=
  program.functions.find? fun function => function.name == name

def global? (program : Program) (name : String) : Option Global :=
  program.globals.find? fun global => global.name == name

def addGlobal (program : Program) (global : Global) : Program :=
  if (program.global? global.name).isSome then program
  else { program with globals := program.globals ++ [global] }

def addFunction (program : Program) (function : Function) : Program :=
  { program with functions := program.functions ++ [function] }

def addString (program : Program) (literal : String) : Program :=
  { program with strings := (program.strings.intern literal).1 }

def instrCount (program : Program) : Nat :=
  program.functions.foldr (fun function count => function.code.length + count) 0

/-- Record the frame size of the first function of the name. -/
def setFrameSize (name : String) (size : Nat) : List Function → List Function
  | [] => []
  | function :: rest =>
    if function.name = name then { function with frameSize := size } :: rest
    else function :: setFrameSize name size rest

def text (program : Program) : String :=
  String.intercalate "\n" (program.functions.map Function.text) ++
    (if program.globals.isEmpty then ""
      else "\nglobals:\n" ++ String.join (program.globals.map fun global => global.text ++ "\n")) ++
    (if program.strings.isEmpty then ""
      else "\nstrings:\n" ++ String.join (program.strings.toList.map fun entry =>
        "  " ++ Operand.stringLabel entry.1 ++ " = " ++ Text.quoted entry.2 ++ "\n"))

end Program

end ArmBackend.Ir
