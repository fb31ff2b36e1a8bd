import ArmBackend.Frame.Allocation
import Mathlib

/-!
# What a frame is asked for

An account of the storage of a function that knows no limit: which places have a
home, how many registers are left, and the bytes that slots and arrays ask for in
turn.  It says when a frame is too large without saying where anything lies.

The code asks for homes one by one.  Allocation and account both go through the list of
what is asked, so that what they keep is shown for one step.
-/

namespace ArmBackend

open List

namespace Ir

/-- The places of the function that occur in an operand, also in the index of an element. -/
def Operand.places : Operand → List Location
  | temp name _ => [.temp name]
  | var name _ => [.var name]
  | param name _ => [.param name]
  | element _ index _ => index.places
  | global _ _ | label _ _ | immediate _ _ => []

/--
What an instruction asks homes for, in turn: the array that it reserves, with its length,
and then a word for each place that its operands name.
-/
def Instr.asks (instr : Instr) : List (Location × Option Nat) :=
  (if instr.opcode = .allocArray then
    instr.defined.toList.map (·, some (Frame.Allocation.arrayLength instr)) else []) ++
    (instr.operands.flatMap Operand.places).map (·, none)

def Function.asks (function : Function) : List (Location × Option Nat) :=
  function.code.flatMap Instr.asks

end Ir

namespace Frame

open Machine

structure Ledger where
  /-- the places that have a home -/
  placed : List Ir.Location
  /-- the registers of the pool that are left -/
  registers : Nat
  /-- the bytes that were asked for, one entry for each slot and each array -/
  requests : List Nat := []

namespace Ledger

/-- A place without a home takes a register, or asks for a slot of eight bytes. -/
def ensure (ledger : Ledger) (place : Ir.Location) : Ledger :=
  if place ∈ ledger.placed then ledger
  else if 0 < ledger.registers then
    { ledger with placed := place :: ledger.placed, registers := ledger.registers - 1 }
  else
    { ledger with placed := place :: ledger.placed, requests := ledger.requests ++ [8] }

/-- The elements that an instruction reserves: at least one, and one if no literal counts them. -/
def elements (instr : Ir.Instr) : Nat :=
  match instr.immediate1? with
  | some count => max count.toWord.toInt.toNat 1
  | none => 1

/-- An array without a home asks for its elements. -/
def reserve (ledger : Ledger) (instr : Ir.Instr) : Ledger :=
  match instr.defined with
  | none => ledger
  | some place =>
    if place ∈ ledger.placed then ledger
    else
      { ledger with
        placed := place :: ledger.placed
        requests := ledger.requests ++ [8 * elements instr] }

/-- An instruction asks for its array, if it reserves one, and then for its operands. -/
def visit (ledger : Ledger) (instr : Ir.Instr) : Ledger :=
  let reserved := if instr.opcode = .allocArray then ledger.reserve instr else ledger
  (instr.operands.flatMap Ir.Operand.places).foldl ensure reserved

/-- The parameters that stay where they arrive: on the stack, or in a leaf anywhere. -/
def arrived (function : Ir.Function) : List Ir.Location :=
  function.parameters.zipIdx.filterMap fun entry =>
    if function.isLeaf ∨ Convention.registerCount ≤ entry.2 then entry.1.location? else none

/-- The account in front of the first instruction; frequent temporaries have registers. -/
def start (function : Ir.Function) : Ledger :=
  let hot := (Allocation.hotTemps function.code).take Reg.pool.length
  { placed := hot.map .temp ++ arrived function
    registers := Reg.pool.length - hot.length }

/-- The account of a whole function. -/
def ofFunction (function : Ir.Function) : Ledger :=
  function.code.foldl visit (start function)

/-- The bytes that were asked for so far. -/
def total (ledger : Ledger) : Nat :=
  ledger.requests.sum

end Ledger

namespace Allocation

/-- Do what is asked unless the place has a home. -/
def give (allocation : Allocation) (ask : Ir.Location × Option Nat) : Except Nat Allocation :=
  if allocation.homes.has ask.1 then .ok allocation
  else match ask.2 with
    | none => allocation.assign ask.1
    | some length => do
      let depth ← grow allocation.depth (8 * length)
      .ok { allocation with homes := allocation.homes.set ask.1 (.array (-depth) length), depth }

theorem foldlM_flatMap {α β : Type} (f : α → List β) (step : Allocation → β → Except Nat Allocation)
    (list : List α) (start : Allocation) :
    (list.flatMap f).foldlM step start =
      list.foldlM (fun state value => (f value).foldlM step state) start := by
  induction list generalizing start with
  | nil => rfl
  | cons value rest ih => simp [foldlM_append, ih]

theorem visit_eq (allocation : Allocation) (operand : Ir.Operand) : allocation.visit operand =
    operand.places.foldlM (fun allocation place => allocation.give (place, none)) allocation := by
  induction operand with
  | temp | var | param => exact (bind_pure _).symm
  | element array index type ih => exact ih
  | _ => rfl

theorem visitInstr_eq (allocation : Allocation) (instr : Ir.Instr) :
    allocation.visitInstr instr = instr.asks.foldlM give allocation := by
  simp only [visitInstr, Ir.Instr.asks, foldlM_append, foldlM_map, foldlM_flatMap, ← visit_eq]
  split
  · unfold reserveArray
    cases instr.defined with
    | none => rfl
    | some place => simp [give]
  · rfl

/-- The allocation in front of the first instruction. -/
def begun (function : Ir.Function) : Allocation :=
  placeHot (hotTemps function.code) { homes := placeParameters function.isLeaf function.parameters }

theorem ofFunction_eq (function : Ir.Function) :
    Allocation.ofFunction function = function.asks.foldlM give (begun function) := by
  rw [Ir.Function.asks, foldlM_flatMap]
  simp only [← visitInstr_eq]
  rfl

end Allocation

namespace Ledger

/-- Account for what is asked unless the place has a home. -/
def give (ledger : Ledger) (ask : Ir.Location × Option Nat) : Ledger :=
  match ask.2 with
  | none => ledger.ensure ask.1
  | some length =>
    if ask.1 ∈ ledger.placed then ledger
    else { ledger with placed := ask.1 :: ledger.placed
                       requests := ledger.requests ++ [8 * length] }

theorem visit_eq (ledger : Ledger) (instr : Ir.Instr) :
    ledger.visit instr = instr.asks.foldl give ledger := by
  have length : Allocation.arrayLength instr = elements instr := by
    unfold Allocation.arrayLength elements
    cases instr.immediate1? with
    | none => rfl
    | some count => simp only; omega
  unfold visit Ir.Instr.asks
  rw [foldl_append, foldl_map, length]
  split
  · unfold reserve
    cases instr.defined <;> rfl
  · rfl

theorem ofFunction_eq (function : Ir.Function) :
    Ledger.ofFunction function = function.asks.foldl give (start function) := by
  rw [Ir.Function.asks, foldl_flatMap]
  simp only [← visit_eq]
  rfl

variable (ledger : Ledger)

theorem mem_give (ask : Ir.Location × Option Nat) (place : Ir.Location) :
    place ∈ (ledger.give ask).placed ↔ place = ask.1 ∨ place ∈ ledger.placed := by
  have known (old : ask.1 ∈ ledger.placed) :
      place ∈ ledger.placed ↔ place = ask.1 ∨ place ∈ ledger.placed :=
    (or_iff_right_of_imp fun same => same ▸ old).symm
  unfold give ensure
  split <;> split
  any_goals exact known (by assumption)
  · split <;> exact mem_cons
  · exact mem_cons

theorem total_le_give (ask : Ir.Location × Option Nat) :
    ledger.total ≤ (ledger.give ask).total := by
  unfold give ensure
  split <;> split
  any_goals exact Nat.le_refl _
  · split <;> simp [total]
  · simp [total]

theorem mem_run (asks : List (Ir.Location × Option Nat)) (place : Ir.Location) :
    place ∈ (asks.foldl give ledger).placed ↔ place ∈ asks.map Prod.fst ∨ place ∈ ledger.placed := by
  induction asks generalizing ledger with
  | nil => simp
  | cons ask rest ih =>
    rw [foldl_cons, ih, mem_give, map_cons, mem_cons, or_left_comm, or_assoc]

theorem total_le_run (asks : List (Ir.Location × Option Nat)) :
    ledger.total ≤ (asks.foldl give ledger).total := by
  induction asks generalizing ledger with
  | nil => exact Nat.le_refl _
  | cons ask rest ih => exact (ledger.total_le_give ask).trans (ih _)

end Ledger

/-- At some point the bytes asked for are more than can be reached from the frame pointer. -/
def Exceeds (function : Ir.Function) : Prop :=
  ∃ soFar, soFar <+: (Ledger.ofFunction function).requests ∧ Allocation.reach < soFar.sum

/-- The largest count is the last one. -/
theorem exceeds_iff (function : Ir.Function) :
    Exceeds function ↔ Allocation.reach < (Ledger.ofFunction function).total := by
  constructor
  · rintro ⟨soFar, ⟨later, split⟩, excess⟩
    unfold Ledger.total
    rw [← split, List.sum_append]
    omega
  · intro excess
    exact ⟨_, List.prefix_rfl, excess⟩

end Frame

end ArmBackend
