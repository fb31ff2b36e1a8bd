import ArmBackend.Ir.Operand
import ArmBackend.Frame.Access

/-!
# Frame layouts

Where each value of a function lives while the function runs, and the code at the
ends of the function that this takes.

From high to low addresses a frame has the arguments that came on the stack, the
saved frame pointer and return address, the slots and arrays, and the saved
registers.  The frame pointer points at the saved pair.
-/

namespace ArmBackend.Frame

open Machine

/-- Where a value lives for the whole function. -/
inductive Home where
  | reg (register : Reg)
  /-- a word at an offset from the frame pointer -/
  | slot (offset : Int)
  /-- the words from an offset from the frame pointer upward -/
  | array (base : Int) (length : Nat)
deriving DecidableEq

namespace Home

def text : Home → String
  | reg register => register.text
  | slot offset => "[x29, #" ++ toString offset ++ "]"
  | array base length => "[x29, #" ++ toString base ++ "] x " ++ toString length

def reg? : Home → Option Reg
  | reg register => some register
  | _ => none

end Home

/-- The homes of places; of two entries for one place the first counts. -/
structure Homes where
  entries : List (Ir.Location × Home) := []
deriving DecidableEq

namespace Homes

def empty : Homes := {}

def get? (homes : Homes) (place : Ir.Location) : Option Home :=
  homes.entries.lookup place

def has (homes : Homes) (place : Ir.Location) : Bool :=
  (homes.get? place).isSome

/-- Give a place a home, in the stead of one that it has. -/
def set (homes : Homes) (place : Ir.Location) (home : Home) : Homes :=
  ⟨(place, home) :: homes.entries.filter fun entry => entry.1 != place⟩

def sorted (homes : Homes) : List (Ir.Location × Home) :=
  homes.entries.mergeSort fun left right => left.1.before right.1

def uses (homes : Homes) (reg : Reg) : Bool :=
  homes.entries.any fun entry => entry.2 == .reg reg

end Homes

structure Layout where
  homes : Homes := .empty
  /-- the registers of the pool that are used, in order; the function saves them -/
  saved : List Reg := []
  /-- the bytes below the frame pointer that slots and arrays take -/
  spillArea : Nat := 0
  leaf : Bool := false
  /-- the arguments that move from their registers to their homes -/
  moves : List (Reg × Home) := []
deriving DecidableEq

namespace Layout

/-- Frame sizes are multiples of sixteen that fit in 32 bits. -/
def largestSize : Nat := 4294967280

/-- The bytes below the frame pointer, rounded up to keep the stack aligned. -/
def size (layout : Layout) : Nat :=
  min ((layout.spillArea + 8 * layout.saved.length + 15) / 16 * 16) largestSize

/-- Where the saved register of an index is, from the stack pointer. -/
def saveOffset (index : Nat) : Nat :=
  8 * index

/-- The size of the saved pair of frame pointer and return address. -/
def recordSize : Nat := 16

/-- Move an argument to its home; an array is no home for an argument. -/
def settle (argument : Reg) : Home → List Instr
  | .reg register => [.mov register argument]
  | .slot offset => storeSlot argument offset
  | .array _ _ => []

def prologue (layout : Layout) : List Instr :=
  [.stpPre .fp .lr .sp (-recordSize), .mov .fp .sp] ++
    reserve layout.size ++
    (layout.saved.zipIdx.map fun entry => .str entry.1 .sp (saveOffset entry.2)) ++
    layout.moves.flatMap fun entry => settle entry.1 entry.2

def epilogue (layout : Layout) : List Instr :=
  (layout.saved.zipIdx.map fun entry => .ldr entry.1 .sp (saveOffset entry.2)) ++
    [.mov .sp .fp, .ldpPost .fp .lr .sp recordSize, .ret]

end Layout

end ArmBackend.Frame
