import ArmBackend.Machine.Program

/-!
# Structural checks

Assembly is well formed if it has instructions, every function has a label and
ends in a return, and every branch goes to a label of the listing.
-/

namespace ArmBackend.Machine

inductive Problem where
  | noInstructions
  | noSymbol (function : String)
  | undefinedTarget (target function : String)
  | noReturn (function : String)
deriving DecidableEq

namespace Problem

def text : Problem → String
  | noInstructions => "assembly contains no instructions"
  | noSymbol function => "function '" ++ function ++ "' has no symbol label"
  | undefinedTarget target function =>
    "branch to undefined label '" ++ target ++ "' in '" ++ function ++ "'"
  | noReturn function => "function '" ++ function ++ "' does not end in ret"

end Problem

def Instr.definedLabel? : Instr → Option String
  | .label name => some name
  | _ => none

namespace Function

def endsInReturn (function : Function) : Bool :=
  (function.body.reverse.find? Instr.isMachine) == some .ret

/-- The problems of a function in a listing with the given labels. -/
def problems (labels : List String) (function : Function) : List Problem :=
  (if labels.contains function.name then [] else [.noSymbol function.name]) ++
    ((function.body.filterMap Instr.target?).filter fun target => !labels.contains target).map
      (.undefinedTarget · function.name) ++
    if function.endsInReturn then [] else [.noReturn function.name]

end Function

namespace Program

def labels (program : Program) : List String :=
  program.lines.filterMap Instr.definedLabel?

def problems (program : Program) : List Problem :=
  (if program.functions.isEmpty || program.instrCount == 0 then [.noInstructions] else []) ++
    program.functions.flatMap (Function.problems program.labels)

end Program

end ArmBackend.Machine
