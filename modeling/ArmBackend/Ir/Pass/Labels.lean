import ArmBackend.Ir.Pass.Revision

/-!
# Unused labels

A label that no jump of the function goes to is dropped.
-/

namespace ArmBackend.Ir

def jumpTargets (code : List Instr) : List String :=
  code.filterMap Instr.target?

namespace Instr

/-- The instruction is no label, or a label that is gone to. -/
def isReachableMark (targets : List String) (instr : Instr) : Bool :=
  instr.opcode != .label ||
    match instr.label with
    | some label => targets.contains label
    | none => false

end Instr

def dropUnusedLabels (code : List Instr) : Revision :=
  .filter (Instr.isReachableMark (jumpTargets code)) code

end ArmBackend.Ir
