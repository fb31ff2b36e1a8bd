import ArmBackend.Machine.Constant

/-!
# Access to the stack frame

A frame lies below the frame pointer.  Offsets within the short range of a load or
store are part of the instruction; farther ones go through a register.
-/

namespace ArmBackend.Frame

open Machine

/-- The range of offsets that a load or store of any alignment can have. -/
def fitsUnscaled (offset : Int) : Bool :=
  decide (-256 ≤ offset ∧ offset ≤ 255)

def loadSlot (dest : Reg) (offset : Int) : List Instr :=
  if fitsUnscaled offset then [.ldur dest .fp offset]
  else loadConst .address (BitVec.ofInt 64 offset) ++ [.ldrAt dest .fp .address false]

def storeSlot (source : Reg) (offset : Int) : List Instr :=
  if fitsUnscaled offset then [.stur source .fp offset]
  else loadConst .address (BitVec.ofInt 64 offset) ++ [.strAt source .fp .address false]

/-- Form the address at an offset whose distance has the given short form, if any. -/
def slotAddressBy (dest : Reg) (offset : Int) : Option ArithImm → List Instr
  | some imm => if offset < 0 then [.subImm dest .fp imm] else [.addImm dest .fp imm]
  | none =>
    loadConst .offset (BitVec.ofNat 64 offset.natAbs) ++
      [.int (if offset < 0 then .sub else .add) dest .fp .offset]

def slotAddress (dest : Reg) (offset : Int) : List Instr :=
  slotAddressBy dest offset (ArithImm.ofInt? offset.natAbs)

/-- Take bytes off the stack. -/
def reserve (bytes : Nat) : List Instr :=
  if bytes = 0 then []
  else match ArithImm.ofInt? bytes with
    | some imm => [.subImm .sp .sp imm]
    | none => loadConst .address (BitVec.ofNat 64 bytes) ++ [.int .sub .sp .sp .address]

def release (bytes : Nat) : List Instr :=
  if bytes = 0 then []
  else match ArithImm.ofInt? bytes with
    | some imm => [.addImm .sp .sp imm]
    | none => loadConst .address (BitVec.ofNat 64 bytes) ++ [.int .add .sp .sp .address]

end ArmBackend.Frame
