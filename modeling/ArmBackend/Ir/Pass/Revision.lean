import ArmBackend.Ir.Instr

/-!
# Revisions

What a pass makes of the code of a function: the new code, and whether it differs
from the old.
-/

namespace ArmBackend.Ir

structure Revision where
  code : List Instr
  changed : Bool
deriving DecidableEq

namespace Revision

def done : Revision := ⟨[], false⟩

def cons (instr : Instr) (changed : Bool) (rest : Revision) : Revision :=
  ⟨instr :: rest.code, changed || rest.changed⟩

def filter (keep : Instr → Bool) (code : List Instr) : Revision :=
  let kept := code.filter keep
  ⟨kept, kept.length != code.length⟩

def andThen (first : Revision) (second : List Instr → Revision) : Revision :=
  let next := second first.code
  ⟨next.code, first.changed || next.changed⟩

end Revision

end ArmBackend.Ir
