import ArmBackend.Frame.Layout

/-!
# The calling convention

The first eight arguments travel in registers, the others in words on the stack
from the caller's stack pointer upward.
-/

namespace ArmBackend.Frame.Convention

open Machine

def name : String := "aapcs64"

def register? (position : Nat) : Option Reg :=
  Reg.arguments[position]?

def registerCount : Nat :=
  Reg.arguments.length

/-- Where the function finds an argument that came on the stack, from its frame pointer. -/
def incoming? (position : Nat) : Option Nat :=
  if position < registerCount then none
  else some (Layout.recordSize + 8 * (position - registerCount))

/-- A number of bytes as a caller counts them, in 32 bits: what is above these is lost. -/
def narrowed (bytes : Nat) : Nat :=
  bytes % 0x100000000

/-- Where the caller puts an argument that goes on the stack, from its stack pointer. -/
def outgoing? (position : Nat) : Option Nat :=
  if position < registerCount then none else some (narrowed (8 * (position - registerCount)))

/-- The bytes that a call with so many arguments takes on the stack. -/
def outgoingArea (count : Nat) : Nat :=
  narrowed (8 * (count - registerCount) + 15) / 16 * 16

/-- For this many arguments, and for fewer, 32 bits are enough. -/
def reach : Nat :=
  0x20000000

end ArmBackend.Frame.Convention
