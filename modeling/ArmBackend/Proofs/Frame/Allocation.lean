import ArmBackend.Proofs.Frame.Homes
import ArmBackend.Proofs.Frame.Ledger

/-!
# Soundness of allocation

What every step of allocation keeps: homes are apart, registers come from the pool
or are argument registers, and ranges of bytes lie between the depth of the frame
and the frame pointer, or where a parameter came on the stack.  A step succeeds
exactly as long as the account of the frame stays within reach.
-/

namespace ArmBackend.Frame

open List

open Machine

variable {leaf : Bool} {home : Home} {homes : Homes} {place : Ir.Location} {position depth : Nat}
  {register : Reg}

namespace Allocation

/-- The home is where the parameter at the place came on the stack. -/
def OnStack (parameters : List Ir.Operand) (place : Ir.Location) (home : Home) : Prop :=
  ∃ position offset, (parameters[position]?).bind Ir.Operand.location? = some place ∧
    Convention.incoming? position = some offset ∧ home = .slot offset

/-- What holds of the homes at every point of the allocation. -/
structure Sound (parameters : List Ir.Operand) (allocation : Allocation) : Prop where
  distinct : allocation.homes.Distinct
  apart : ∀ {left right : Ir.Location} {leftHome rightHome : Home},
    allocation.homes.get? left = some leftHome → allocation.homes.get? right = some rightHome →
      left ≠ right → leftHome.Apart rightHome
  free_suffix : allocation.free <:+ Reg.pool
  taken : ∀ {place : Ir.Location} {register : Reg},
    allocation.homes.get? place = some (.reg register) → register ∉ allocation.free
  known : ∀ {place : Ir.Location} {register : Reg},
    allocation.homes.get? place = some (.reg register) →
      register ∈ Reg.arguments ∨ register ∈ Reg.pool
  ranges : ∀ {place : Ir.Location} {home : Home}, allocation.homes.get? place = some home →
    home.Within (-allocation.depth) 0 ∨ OnStack parameters place home
  within_reach : allocation.depth ≤ reach

theorem incoming?_ge {offset : Nat} (found : Convention.incoming? position = some offset) :
    Layout.recordSize ≤ offset := by
  unfold Convention.incoming? at found
  split at found
  · cases found
  · cases found
    exact Nat.le_add_right _ _

theorem OnStack.within {parameters : List Ir.Operand} (arrived : OnStack parameters place home) :
    ∃ offset : Nat, Layout.recordSize ≤ offset ∧ home = .slot offset := by
  obtain ⟨position, offset, -, found, heq⟩ := arrived
  exact ⟨offset, incoming?_ge found, heq⟩

namespace Sound

variable {parameters : List Ir.Operand} {allocation : Allocation}

theorem apart_below (sound : allocation.Sound parameters) {low : Int}
    (memory : ∀ register, home ≠ .reg register) (within : home.Within low (-allocation.depth))
    {other : Ir.Location} {otherHome : Home}
    (given : allocation.homes.get? other = some otherHome) : home.Apart otherHome := by
  rcases sound.ranges given with inside | arrived
  · exact Home.apart_of_within memory within inside
  · obtain ⟨found, above, rfl⟩ := arrived.within
    exact Home.apart_of_within memory within
      ((Home.within_slot _).mono (by omega) (Int.le_refl _))

variable (sound : allocation.Sound parameters) (place : Ir.Location)
include sound

theorem insert {free : List Reg} (shorter : free <:+ allocation.free)
    (deeper : allocation.depth ≤ depth) (reached : depth ≤ reach)
    (register_ok : ∀ register, home = .reg register → register ∉ free ∧ register ∈ Reg.pool)
    (inside : home.Within (-depth) 0)
    (separate : ∀ other otherHome, allocation.homes.get? other = some otherHome →
      home.Apart otherHome) :
    Sound parameters { homes := allocation.homes.set place home, free, depth } where
  distinct := sound.distinct.set place home
  apart := by
    intro left right leftHome rightHome hleft hright differ
    rw [Homes.get?_set] at hleft hright
    by_cases sameLeft : left = place
    · rw [if_pos sameLeft] at hleft
      cases hleft
      rw [if_neg (fun sameRight => differ (sameLeft.trans sameRight.symm))] at hright
      exact separate right rightHome hright
    · rw [if_neg sameLeft] at hleft
      by_cases sameRight : right = place
      · rw [if_pos sameRight] at hright
        cases hright
        exact (separate left leftHome hleft).symm
      · rw [if_neg sameRight] at hright
        exact sound.apart hleft hright differ
  free_suffix := shorter.trans sound.free_suffix
  taken := by
    intro query register found
    rw [Homes.get?_set] at found
    split at found
    · cases found
      exact (register_ok register rfl).1
    · exact fun hmem => sound.taken found (shorter.subset hmem)
  known := by
    intro query register found
    rw [Homes.get?_set] at found
    split at found
    · cases found
      exact Or.inr (register_ok register rfl).2
    · exact sound.known found
  ranges := by
    intro query other found
    rw [Homes.get?_set] at found
    split at found
    · cases found
      exact Or.inl inside
    · exact (sound.ranges found).imp_left fun within =>
        within.mono (Int.neg_le_neg (Int.ofNat_le.mpr deeper)) (Int.le_refl _)
  within_reach := reached

/-- The next register of the pool. -/
theorem takeRegister {rest : List Reg} (next : allocation.free = register :: rest) :
    Sound parameters
      { allocation with homes := allocation.homes.set place (.reg register), free := rest } := by
  have suffix := sound.free_suffix
  rw [next] at suffix
  have listed : register ∈ Reg.pool := suffix.subset mem_cons_self
  have nodup : (register :: rest).Nodup := suffix.sublist.nodup (by decide)
  apply sound.insert place (next ▸ suffix_cons register rest) (Nat.le_refl _)
    sound.within_reach
  · intro other heq
    cases heq
    exact ⟨(nodup_cons.mp nodup).1, listed⟩
  · intro byte covered
    cases covered
  · intro other otherHome found
    cases otherHome with
    | reg used =>
      apply Home.apart_reg
      intro same
      subst same
      exact sound.taken found (next ▸ mem_cons_self)
    | slot offset | array base length => exact Home.apart_of_reg_of_ne (by simp)

/-- A range of bytes below all that were given. -/
theorem takeBytes (memory : ∀ register, home ≠ .reg register) (deeper : allocation.depth ≤ depth)
    (reached : depth ≤ reach) (within : home.Within (-depth) (-allocation.depth)) :
    Sound parameters { allocation with homes := allocation.homes.set place home, depth } := by
  apply sound.insert place (suffix_refl _) deeper reached
  · exact fun register heq => absurd heq (memory register)
  · exact within.mono (Int.le_refl _) (by omega)
  · exact fun other otherHome found => sound.apart_below memory within found

end Sound

/-! ## Parameters that stay where they arrive -/

theorem arguments_not_pool : ∀ register ∈ Reg.arguments, register ∉ Reg.pool := by
  decide

/-- Parameters at two positions arrive apart. -/
theorem arrival?_apart {left right : Nat} {leftHome rightHome : Home}
    (hleft : arrival? leaf left = some leftHome) (hright : arrival? leaf right = some rightHome)
    (differ : left ≠ right) : leftHome.Apart rightHome := by
  have arguments_nodup : Reg.arguments.Nodup := by decide
  unfold arrival? Convention.incoming? at hleft hright
  by_cases leftInReg : left < Convention.registerCount
  · rw [if_pos leftInReg] at hleft
    cases leaf with
    | false => cases hleft
    | true =>
      obtain ⟨leftReg, foundLeft, rfl⟩ := Option.map_eq_some_iff.mp hleft
      by_cases rightInReg : right < Convention.registerCount
      · rw [if_pos rightInReg] at hright
        obtain ⟨rightReg, foundRight, rfl⟩ := Option.map_eq_some_iff.mp hright
        apply Home.apart_reg
        intro same
        subst same
        exact differ ((getElem?_inj leftInReg arguments_nodup).mp
          (foundLeft.trans foundRight.symm))
      · rw [if_neg rightInReg] at hright
        cases hright
        exact Home.apart_of_reg_of_ne (by simp)
  · rw [if_neg leftInReg] at hleft
    cases hleft
    by_cases rightInReg : right < Convention.registerCount
    · rw [if_pos rightInReg] at hright
      cases leaf with
      | false => cases hright
      | true =>
        obtain ⟨rightReg, foundRight, rfl⟩ := Option.map_eq_some_iff.mp hright
        exact (Home.apart_of_reg_of_ne (by simp)).symm
    · rw [if_neg rightInReg] at hright
      cases hright
      refine ⟨by simp, ?_⟩
      intro byte hl hr
      unfold Home.Covers at hl hr
      simp only [Layout.recordSize] at hl hr
      omega

theorem arrival?_reg (found : arrival? leaf position = some (.reg register)) :
    register ∈ Reg.arguments := by
  unfold arrival? at found
  split at found
  · cases found
  · split at found
    · obtain ⟨reg, listed, heq⟩ := Option.map_eq_some_iff.mp found
      cases heq
      exact mem_of_getElem? listed
    · cases found

theorem arrival?_memory (found : arrival? leaf position = some home)
    (memory : ∀ register, home ≠ .reg register) :
    ∃ offset, Convention.incoming? position = some offset ∧ home = .slot offset := by
  unfold arrival? at found
  split at found
  · next offset incoming =>
      cases found
      exact ⟨offset, incoming, rfl⟩
  · split at found
    · obtain ⟨reg, -, heq⟩ := Option.map_eq_some_iff.mp found
      exact absurd heq.symm (memory reg)
    · cases found

theorem arrival?_isSome (leaf : Bool) (position : Nat) :
    (arrival? leaf position).isSome = true ↔
      (leaf = true ∨ Convention.registerCount ≤ position) := by
  unfold arrival? Convention.incoming?
  by_cases inReg : position < Convention.registerCount
  · cases leaf with
    | false => simp [inReg]
    | true =>
      have listed : position < Reg.arguments.length := inReg
      simp [inReg, Convention.register?, listed]
  · simp [inReg, Nat.le_of_not_lt inReg]

/-- Give the parameter of an entry the home that it arrives in. -/
def placeParameter (leaf : Bool) (homes : Homes) (entry : Ir.Operand × Nat) : Homes :=
  match entry.1.location?, arrival? leaf entry.2 with
  | some place, some home => homes.set place home
  | _, _ => homes

theorem placeParameters_eq (leaf : Bool) (parameters : List Ir.Operand) :
    placeParameters leaf parameters = parameters.zipIdx.foldl (placeParameter leaf) .empty :=
  rfl

section

variable (leaf : Bool) (entries : List (Ir.Operand × Nat))

theorem distinct_placeParameter (distinct : homes.Distinct) :
    (entries.foldl (placeParameter leaf) homes).Distinct := by
  induction entries generalizing homes with
  | nil => exact distinct
  | cons entry rest ih =>
    apply ih
    unfold placeParameter
    split
    · exact distinct.set _ _
    · exact distinct

theorem get?_placeParameter
    (found : (entries.foldl (placeParameter leaf) homes).get? place = some home) :
    homes.get? place = some home ∨ ∃ entry ∈ entries,
      entry.1.location? = some place ∧ arrival? leaf entry.2 = some home := by
  induction entries generalizing homes with
  | nil => exact Or.inl found
  | cons entry rest ih =>
    rcases ih found with before | ⟨later, hmem, hplace, hhome⟩
    · unfold placeParameter at before
      split at before
      · next place' home' hplace hhome =>
          rw [Homes.get?_set] at before
          split at before
          · next same =>
              cases before
              subst same
              exact Or.inr ⟨entry, mem_cons_self, hplace, hhome⟩
          · exact Or.inl before
      · exact Or.inl before
    · exact Or.inr ⟨later, mem_cons_of_mem _ hmem, hplace, hhome⟩

theorem has_placeParameter (homes : Homes) (place : Ir.Location) :
    (entries.foldl (placeParameter leaf) homes).has place = true ↔
      homes.has place = true ∨ place ∈ entries.filterMap fun entry =>
        if leaf ∨ Convention.registerCount ≤ entry.2 then entry.1.location? else none := by
  induction entries generalizing homes with
  | nil => simp
  | cons entry rest ih =>
    rw [List.foldl_cons, ih, List.filterMap_cons]
    have arrives := arrival?_isSome leaf entry.2
    unfold placeParameter
    cases hplace : entry.1.location? with
    | none => simp
    | some own =>
      cases hhome : arrival? leaf entry.2 with
      | none =>
        rw [hhome] at arrives
        have stays : ¬ (leaf = true ∨ Convention.registerCount ≤ entry.2) := by
          simpa using arrives
        simp [stays]
      | some home =>
        rw [hhome] at arrives
        have stays : leaf = true ∨ Convention.registerCount ≤ entry.2 := by
          simpa using arrives
        simp [stays, Homes.has_set, or_assoc, or_left_comm]

end

/-- Parameters in the homes they arrive in. -/
theorem sound_placeParameters (leaf : Bool) (parameters : List Ir.Operand) :
    Sound parameters { homes := placeParameters leaf parameters } := by
  have origin : ∀ {place : Ir.Location} {home : Home},
      (placeParameters leaf parameters).get? place = some home →
        ∃ position, (parameters[position]?).bind Ir.Operand.location? = some place ∧
          arrival? leaf position = some home := by
    intro place home found
    rw [placeParameters_eq] at found
    rcases get?_placeParameter leaf parameters.zipIdx found with none | ⟨entry, hmem, hplace, hhome⟩
    · cases none
    · have listed := mem_zipIdx_iff_getElem?.mp hmem
      exact ⟨entry.2, by rw [listed]; exact hplace, hhome⟩
  refine ⟨distinct_placeParameter leaf _ Homes.distinct_empty, ?_, suffix_refl _, ?_, ?_, ?_,
    Nat.zero_le _⟩
  · intro left right leftHome rightHome hleft hright differ
    obtain ⟨leftPosition, leftPlace, leftArrival⟩ := origin hleft
    obtain ⟨rightPosition, rightPlace, rightArrival⟩ := origin hright
    apply arrival?_apart leftArrival rightArrival
    intro same
    subst same
    exact differ (Option.some.inj (leftPlace.symm.trans rightPlace))
  · intro place register found
    obtain ⟨position, -, arrives⟩ := origin found
    exact arguments_not_pool _ (arrival?_reg arrives)
  · intro place register found
    obtain ⟨position, -, arrives⟩ := origin found
    exact Or.inl (arrival?_reg arrives)
  · intro place home found
    obtain ⟨position, hplace, arrives⟩ := origin found
    cases home with
    | reg register => exact Or.inl fun byte covered => False.elim covered
    | slot offset =>
      obtain ⟨incoming, hincoming, heq⟩ := arrival?_memory arrives (by simp)
      exact Or.inr ⟨position, incoming, hplace, hincoming, heq⟩
    | array base length =>
      obtain ⟨incoming, -, heq⟩ := arrival?_memory arrives (by simp)
      cases heq

end Allocation

end ArmBackend.Frame
