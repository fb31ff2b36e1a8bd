import ArmBackend.Machine.Constant
import ArmBackend.Machine.Fault

/-!
# Emission

A step of emission may take scratch registers, emits code, and may find the
instruction at fault.  Steps are composed: the second takes what the first leaves
of the scratch registers, and its code follows.
-/

namespace ArmBackend.Machine

/-- What a step leaves: its result, its code, and the scratch registers that are still free. -/
structure Emitted (α : Type) where
  value : α
  code : List Instr
  free : List Reg

/-- A step of emission, from the scratch registers that are free. -/
def Emit (α : Type) := List Reg → Except Cause (Emitted α)

namespace Emit

def done {α : Type} (value : α) : Emit α :=
  fun free => .ok ⟨value, [], free⟩

def andThen {α β : Type} (first : Emit α) (next : α → Emit β) : Emit β :=
  fun free =>
    match first free with
    | .error cause => .error cause
    | .ok before =>
      match next before.value before.free with
      | .error cause => .error cause
      | .ok after => .ok ⟨after.value, before.code ++ after.code, after.free⟩

instance : Monad Emit where
  pure := done
  bind := andThen

def fail {α : Type} (cause : Cause) : Emit α :=
  fun _ => .error cause

def code (instrs : List Instr) : Emit Unit :=
  fun free => .ok ⟨(), instrs, free⟩

def scratch : Emit Reg
  | [] => .error .noScratch
  | reg :: rest => .ok ⟨reg, [], rest⟩

def refill : Emit Unit :=
  fun _ => .ok ⟨(), [], Reg.scratch⟩

/-- A part that the instruction must have. -/
def required {α : Type} : Option α → Emit α
  | some part => done part
  | none => fail .malformed

/-- The code of a step that starts with all scratch registers. -/
def run (step : Emit Unit) : Except Cause (List Instr) :=
  (step Reg.scratch).map Emitted.code

end Emit

end ArmBackend.Machine
