import ArmBackend.Ir.Program
import ArmBackend.Frame.Convention

/-!
# Allocation of homes

Every place of a function gets one home for the whole function.  Parameters may
stay where they arrive.  Temporaries that occur often come first, then all others
in the order in which the code names them; each takes the next register of the
pool, or a slot in the frame once the pool is empty.
-/

namespace ArmBackend.Frame

open Machine

/-- The temporaries met so far, each with the number of its occurrences, in the order of the first
ones; the index gives their places by name. -/
structure Tally where
  order : List (String × Nat) := []
  index : List (String × Nat) := []

namespace Tally

/-- One more occurrence of a temporary. -/
def count (tally : Tally) (name : String) : Tally :=
  match tally.index.lookup name with
  | some place =>
    { tally with order := tally.order.modify place fun entry => (entry.1, entry.2 + 1) }
  | none => ⟨tally.order ++ [(name, 1)], (name, tally.order.length) :: tally.index⟩

def visit (tally : Tally) (operand : Ir.Operand) : Tally :=
  operand.temps.foldl count tally

def ofCode (code : List Ir.Instr) : Tally :=
  code.foldl (fun tally instr => instr.operands.foldl visit tally) {}

end Tally

/-- The homes given so far, the registers that are left, and the bytes of frame in use. -/
structure Allocation where
  homes : Homes := .empty
  free : List Reg := Reg.pool
  depth : Nat := 0
deriving DecidableEq

namespace Allocation

def start : Allocation := {}

/-- The lowest byte of a frame must be within this many bytes of the frame pointer. -/
def reach : Nat := 2147483647

def countLimit : Nat := 18446744073709551615

/-- The depth of the frame after bytes are added, or the count that is too large. -/
def grow (depth bytes : Nat) : Except Nat Nat :=
  let next := min (depth + bytes) countLimit
  if next ≤ reach then .ok next else .error next

/-- Give a place the next register, or else a slot. -/
def assign (place : Ir.Location) (allocation : Allocation) : Except Nat Allocation :=
  match allocation.free with
  | reg :: rest =>
    .ok { allocation with homes := allocation.homes.set place (.reg reg), free := rest }
  | [] => do
    let depth ← grow allocation.depth 8
    .ok { allocation with homes := allocation.homes.set place (.slot (-depth)), depth }

/-- Assign a home to the place unless it has one. -/
def ensure (place : Ir.Location) (allocation : Allocation) : Except Nat Allocation :=
  if allocation.homes.has place then .ok allocation else allocation.assign place

/-- Home for what an operand names; of an element only the index needs one. -/
def visit (allocation : Allocation) : Ir.Operand → Except Nat Allocation
  | .temp name _ => allocation.ensure (.temp name)
  | .var name _ => allocation.ensure (.var name)
  | .param name _ => allocation.ensure (.param name)
  | .element _ index _ => allocation.visit index
  | .global _ _ | .label _ _ | .immediate _ _ => .ok allocation

/-- The elements of an array that is reserved: at least one, and one if no literal counts them. -/
def arrayLength (instr : Ir.Instr) : Nat :=
  match instr.immediate1? with
  | some count => (max count.toWord.toInt 1).toNat
  | none => 1

def reserveArray (instr : Ir.Instr) (allocation : Allocation) : Except Nat Allocation :=
  match instr.defined with
  | none => .ok allocation
  | some place =>
    if allocation.homes.has place then .ok allocation
    else do
      let length := arrayLength instr
      let depth ← grow allocation.depth (8 * length)
      .ok { allocation with homes := allocation.homes.set place (.array (-depth) length), depth }

def visitInstr (allocation : Allocation) (instr : Ir.Instr) : Except Nat Allocation := do
  let allocation ← if instr.opcode = .allocArray then allocation.reserveArray instr
    else .ok allocation
  instr.operands.foldlM visit allocation

/-- A parameter that came on the stack stays there; a leaf keeps the others in their registers. -/
def arrival? (leaf : Bool) (position : Nat) : Option Home :=
  match Convention.incoming? position with
  | some offset => some (.slot offset)
  | none => if leaf then (Convention.register? position).map .reg else none

def placeParameters (leaf : Bool) (parameters : List Ir.Operand) : Homes :=
  parameters.zipIdx.foldl (fun homes entry =>
    match entry.1.location?, arrival? leaf entry.2 with
    | some place, some home => homes.set place home
    | _, _ => homes) .empty

/-- Temporaries that occur more than twice, in the order of their first occurrence. -/
def hotTemps (code : List Ir.Instr) : List String :=
  ((Tally.ofCode code).order.filter fun entry => decide (2 < entry.2)).map Prod.fst

/-- Registers for the temporaries, as far as the pool goes. -/
def placeHot (names : List String) (allocation : Allocation) : Allocation :=
  (names.zip allocation.free).foldl (fun allocation entry =>
    { allocation with
      homes := allocation.homes.set (.temp entry.1) (.reg entry.2)
      free := allocation.free.tail }) allocation

def ofFunction (function : Ir.Function) : Except Nat Allocation :=
  let arrived : Allocation :=
    { homes := placeParameters function.isLeaf function.parameters }
  function.code.foldlM visitInstr (arrived.placeHot (hotTemps function.code))

end Allocation

namespace Layout

/-- What the prologue moves: the arguments in registers whose parameters have homes. -/
def argumentMoves (homes : Homes) (parameters : List Ir.Operand) : List (Reg × Home) :=
  (Reg.arguments.zip parameters).filterMap fun entry => do
    let place ← entry.2.location?
    let home ← homes.get? place
    return (entry.1, home)

/-- The frame of a function, or the bytes it would need if that is more than can be reached. -/
def ofFunction (function : Ir.Function) : Except Nat Layout := do
  let allocation ← Allocation.ofFunction function
  return {
    homes := allocation.homes
    saved := Reg.pool.filter allocation.homes.uses
    spillArea := allocation.depth
    leaf := function.isLeaf
    moves := if function.isLeaf then [] else argumentMoves allocation.homes function.parameters }

end Layout

end ArmBackend.Frame
