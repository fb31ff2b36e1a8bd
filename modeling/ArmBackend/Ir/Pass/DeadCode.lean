import ArmBackend.Ir.Pass.Revision

/-!
# Dead code

A result that no instruction of the function reads is not computed.  Reads count
wherever they stand, so what a loop carries around stays.
-/

namespace ArmBackend.Ir

def usedPlaces (code : List Instr) : List Location :=
  code.flatMap Instr.uses

namespace Instr

/-- The instruction must stay, given the places that are read. -/
def isNeeded (used : List Location) (instr : Instr) : Bool :=
  instr.opcode.hasEffect || !instr.opcode.isRemovable ||
    match instr.defined with
    | some place => used.contains place
    | none => true

end Instr

def dropDeadCode (code : List Instr) : Revision :=
  .filter (Instr.isNeeded (usedPlaces code)) code

end ArmBackend.Ir
