import ArmBackend.Ir.Pass.Revision

/-!
# Jumps and idle instructions

Instructions that do nothing are dropped, then jumps to the next instruction, and
last a branch around a jump becomes the opposite branch to where the jump went.
-/

namespace ArmBackend.Ir

namespace Instr

def isSelfMove (instr : Instr) : Bool :=
  instr.opcode == .move && instr.defined.isSome &&
    decide (instr.defined = instr.src1.bind Operand.location?)

def isIdle (instr : Instr) : Bool :=
  instr.opcode == .nop || instr.isSelfMove

/-- A jump to the label that stands behind it. -/
def jumpsTo (jump next : Instr) : Bool :=
  jump.opcode == .jump && next.opcode == .label && jump.label == next.label

def oppositeBranch? : Opcode → Option Opcode
  | .jumpIfFalse => some .jumpIfTrue
  | .jumpIfTrue => some .jumpIfFalse
  | _ => none

/-- The branch that a branch around a jump becomes. -/
def inverted? (branch jump next : Instr) : Option Instr :=
  match oppositeBranch? branch.opcode with
  | some opcode =>
    if jump.opcode = .jump ∧ next.opcode = .label ∧ branch.label = next.label then
      some { branch with opcode, label := jump.label }
    else none
  | none => none

end Instr

/-- Drop moves of a place to itself, and instructions without an operation. -/
def dropIdle (code : List Instr) : Revision :=
  .filter (fun instr => !instr.isIdle) code

def dropShortJumps : List Instr → Revision
  | [] => .done
  | [instr] => .cons instr false .done
  | jump :: next :: rest =>
    let others := dropShortJumps (next :: rest)
    if jump.jumpsTo next then { others with changed := true }
    else .cons jump false others

def invertBranches : List Instr → Revision
  | branch :: jump :: next :: rest =>
    match branch.inverted? jump next with
    | some inverted => .cons inverted true (invertBranches (next :: rest))
    | none => .cons branch false (invertBranches (jump :: next :: rest))
  | code => ⟨code, false⟩

def tidyJumps (code : List Instr) : Revision :=
  ((dropIdle code).andThen dropShortJumps).andThen invertBranches

end ArmBackend.Ir
