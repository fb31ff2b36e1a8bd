import ArmBackend.Proofs.Frame.Allocation
import ArmBackend.Proofs.Ir.Semantics

/-!
# Where homes come from

A place has the home in which its parameter arrived, or one that it was given on the way:
a register for a frequent temporary, a register or slot at its first mention, or the range
of an array where that is reserved.  A home is never taken back.
-/

namespace ArmBackend.Ir

open List

/-- The instruction names the place, and not as the array that it reserves. -/
def Instr.Mentions (instr : Instr) (place : Location) : Prop :=
  place ∈ instr.operands.flatMap Operand.places ∧
    ¬ (instr.opcode = .allocArray ∧ instr.defined = some place)

namespace Function

/-- The place is used as one that holds a single word. -/
def UsesScalar (function : Function) (place : Location) : Prop :=
  (∃ parameter ∈ function.parameters, parameter.location? = some place) ∨
    ∃ instr ∈ function.code, instr.Mentions place

/-- The instruction of the function reserves the array. -/
def Reserves (function : Function) (place : Location) (instr : Instr) : Prop :=
  instr ∈ function.code ∧ instr.opcode = .allocArray ∧ instr.defined = some place

/-- A word is first asked for where the place is named, and an array where it is reserved. -/
theorem of_lookup_asks {function : Function} {place : Location} {need : Option Nat}
    (first : function.asks.lookup place = some need) :
    (need = none → ∃ instr ∈ function.code, instr.Mentions place) ∧
      ∀ length, need = some length → ∃ instr, function.Reserves place instr ∧
        length = Frame.Allocation.arrayLength instr := by
  obtain ⟨instr, listed, found⟩ : ∃ instr ∈ function.code, instr.asks.lookup place = some need := by
    rw [asks] at first
    generalize function.code = code at first ⊢
    induction code with
    | nil => cases first
    | cons instr rest ih =>
      rw [flatMap_cons, lookup_append] at first
      cases here : instr.asks.lookup place with
      | none =>
        rw [here] at first
        obtain ⟨other, member, found⟩ := ih first
        exact ⟨other, .tail _ member, found⟩
      | some own =>
        rw [here] at first
        exact ⟨instr, .head _, here.trans first⟩
  have member : (place, need) ∈ instr.asks := by
    obtain ⟨before, after, same, _⟩ := lookup_eq_some_iff.mp found
    simp [same]
  constructor
  · rintro rfl
    refine ⟨instr, listed, by simpa [Instr.asks] using member, fun reserves => ?_⟩
    simp [Instr.asks, reserves] at found
  · rintro length rfl
    simp [Instr.asks] at member
    exact ⟨instr, ⟨listed, member.1, member.2.1⟩, member.2.2.symm⟩

theorem owns_iff (function : Function) (array : String) :
    function.owns array = true ↔ ∃ instr, function.Reserves (.var array) instr := by
  simp [owns, Reserves]

end Function

end ArmBackend.Ir

namespace ArmBackend.Frame

open List Option

open Machine

/-- The reasons for which allocation gives a home to a place that has none. -/
inductive Granted (function : Ir.Function) : Ir.Location → Home → Prop where
  | frequent (name : String) {register : Reg} (pooled : register ∈ Reg.pool) :
      Granted function (.temp name) (.reg register)
  | register {place : Ir.Location} {register : Reg} (pooled : register ∈ Reg.pool)
      (named : ∃ instr ∈ function.code, instr.Mentions place) :
      Granted function place (.reg register)
  | slot {place : Ir.Location} (offset : Int)
      (named : ∃ instr ∈ function.code, instr.Mentions place) :
      Granted function place (.slot offset)
  | array {place : Ir.Location} {instr : Ir.Instr} (base : Int)
      (reserves : function.Reserves place instr) :
      Granted function place (.array base (Allocation.arrayLength instr))

variable {home : Home} {instr : Ir.Instr} {place : Ir.Location}

namespace Allocation

/-- From one point of the allocation to a later one. -/
structure Advances (function : Ir.Function) (before after : Allocation) : Prop where
  keeps : ∀ {place home}, before.homes.get? place = some home →
    after.homes.get? place = some home
  grants : ∀ {place home}, after.homes.get? place = some home →
    before.homes.get? place = some home ∨ Granted function place home

section

variable {function : Ir.Function} {first second third : Allocation}

theorem Advances.refl (function : Ir.Function) (allocation : Allocation) :
    allocation.Advances function allocation :=
  ⟨id, .inl⟩

theorem Advances.trans (one : first.Advances function second)
    (two : second.Advances function third) : first.Advances function third where
  keeps found := two.keeps (one.keeps found)
  grants found := (two.grants found).elim one.grants .inr

/-- A place that has no home may be given one. -/
theorem Advances.give (homes : second.homes = first.homes.set place home)
    (bare : first.homes.has place = false) (granted : Granted function place home) :
    first.Advances function second where
  keeps found := homes ▸ Homes.get?_set_of_bare bare found
  grants {other otherHome} found := by
    rw [homes, Homes.get?_set] at found
    split at found
    · next same =>
        cases found
        subst same
        exact .inr granted
    · exact .inl found

end

theorem get?_placeParameter_of_all {leaf : Bool} {entries : List (Ir.Operand × Nat)} {homes : Homes}
    (all : ∀ entry ∈ entries, entry.1.location? = some place → arrival? leaf entry.2 = some home)
    (given : homes.get? place = some home ∨ ∃ entry ∈ entries, entry.1.location? = some place) :
    (entries.foldl (placeParameter leaf) homes).get? place = some home := by
  induction entries generalizing homes with
  | nil => exact given.resolve_right (by simp)
  | cons entry rest ih =>
    refine ih (fun later member => all later (.tail _ member)) ?_
    by_cases here : entry.1.location? = some place
    · left
      have arrives := all entry (mem_cons_self ..) here
      rw [placeParameter, here, arrives, Homes.get?_set_self]
    · rcases given with before | ⟨later, member, there⟩
      · left
        unfold placeParameter
        split
        · next other home' named _ =>
            have differ : place ≠ other := by
              rintro rfl
              exact here named
            rw [Homes.get?_set_ne _ _ differ, before]
        · exact before
      · rcases mem_cons.mp member with rfl | member
        · exact absurd there here
        · exact .inr ⟨later, member, there⟩

end Allocation

end ArmBackend.Frame
