import ArmBackend.Frame.Allocation

/-!
# Homes that do not overlap

A home is a register or a range of bytes at an offset from the frame pointer.  Two
homes are apart when they are different registers, or ranges without a common byte.
The look-up of homes is described once here, by what `set` changes.
-/

namespace ArmBackend.Frame

open List

open Machine

namespace Home

/-- The home contains the byte at the offset from the frame pointer. -/
def Covers : Home → Int → Prop
  | .reg _, _ => False
  | .slot offset, byte => offset ≤ byte ∧ byte < offset + 8
  | .array base length, byte => base ≤ byte ∧ byte < base + 8 * length

/-- No register and no byte belongs to both homes. -/
structure Apart (left right : Home) : Prop where
  registers : ∀ register, left = .reg register → right ≠ .reg register
  bytes : ∀ byte, left.Covers byte → ¬ right.Covers byte

/-- The home is a range of bytes that lies from `low` up to below `high`. -/
def Within (home : Home) (low high : Int) : Prop :=
  ∀ byte, home.Covers byte → low ≤ byte ∧ byte < high

variable {left right home : Home} {low high : Int}

theorem Apart.symm (apart : left.Apart right) : right.Apart left where
  registers register hright hleft := apart.registers register hleft hright
  bytes byte hright hleft := apart.bytes byte hleft hright

/-- Two registers are apart as soon as they differ. -/
theorem apart_reg {left right : Reg} (differ : left ≠ right) :
    (Home.reg left).Apart (.reg right) where
  registers register hleft hright := by
    cases hleft
    cases hright
    exact differ rfl
  bytes _ hleft _ := hleft

/-- A register is apart from every range of bytes. -/
theorem apart_of_reg_of_ne {register : Reg} (memory : ∀ r, home ≠ .reg r) :
    (Home.reg register).Apart home where
  registers r _ := memory r
  bytes _ hleft _ := hleft

theorem apart_of_within {middle : Int} (memory : ∀ register, left ≠ .reg register)
    (hleft : left.Within low middle) (hright : right.Within middle high) :
    left.Apart right where
  registers register heq := absurd heq (memory register)
  bytes byte hl hr := by
    have below := (hleft byte hl).2
    have above := (hright byte hr).1
    omega

theorem Within.mono {low' high' : Int}
    (within : home.Within low high) (hlow : low' ≤ low) (hhigh : high ≤ high') :
    home.Within low' high' := by
  intro byte covered
  have bounds := within byte covered
  omega

theorem within_slot (offset : Int) : (Home.slot offset).Within offset (offset + 8) :=
  fun _ covered => covered

theorem within_array (base : Int) (length : Nat) :
    (Home.array base length).Within base (base + 8 * length) :=
  fun _ covered => covered

end Home

namespace Homes

variable {place query : Ir.Location}

theorem lookup_filter_ne (differ : query ≠ place) (entries : List (Ir.Location × Home)) :
    (entries.filter fun entry => entry.1 != place).lookup query = entries.lookup query := by
  induction entries with
  | nil => rfl
  | cons entry rest ih =>
    obtain ⟨key, home⟩ := entry
    by_cases hkey : key = place
    · subst key
      have miss : (query == place) = false := by simpa using differ
      simp [lookup_cons, miss, ih]
    · simp [hkey, lookup_cons, ih]

@[simp]
theorem get?_empty (place : Ir.Location) : Homes.empty.get? place = none :=
  rfl

/-- A place has the home that it was given last. -/
theorem get?_set (homes : Homes) (place query : Ir.Location) (home : Home) :
    (homes.set place home).get? query = if query = place then some home else homes.get? query := by
  by_cases same : query = place
  · subst query
    simp [get?, set]
  · have miss : (query == place) = false := by simpa using same
    simp only [get?, set, lookup_cons, miss, same, if_false]
    exact lookup_filter_ne same homes.entries

@[simp]
theorem get?_set_self (homes : Homes) (place : Ir.Location) (home : Home) :
    (homes.set place home).get? place = some home := by
  rw [get?_set, if_pos rfl]

theorem get?_set_ne (homes : Homes) (home : Home)
    (differ : query ≠ place) : (homes.set place home).get? query = homes.get? query := by
  rw [get?_set, if_neg differ]

theorem get?_set_of_bare {homes : Homes} {home given : Home} (bare : homes.has place = false)
    (found : homes.get? query = some home) : (homes.set place given).get? query = some home := by
  have differ : query ≠ place := by
    rintro rfl
    rw [has, found] at bare
    cases bare
  rw [get?_set_ne _ _ differ, found]

theorem has_set (homes : Homes) (place query : Ir.Location) (home : Home) :
    (homes.set place home).has query = (decide (query = place) || homes.has query) := by
  unfold has
  rw [get?_set]
  by_cases same : query = place <;> simp [same]

/-- No place has two entries. -/
def Distinct (homes : Homes) : Prop :=
  (homes.entries.map Prod.fst).Nodup

theorem distinct_empty : Distinct .empty :=
  nodup_nil

variable {homes : Homes} (distinct : homes.Distinct)
include distinct

theorem Distinct.set (place : Ir.Location) (home : Home) : (homes.set place home).Distinct := by
  unfold Distinct Homes.set
  rw [map_cons, nodup_cons]
  constructor
  · intro hmem
    obtain ⟨entry, hentry, hkey⟩ := mem_map.mp hmem
    have kept := (mem_filter.mp hentry).2
    simp [hkey] at kept
  · exact (filter_sublist.map Prod.fst).nodup distinct

theorem Distinct.get?_eq_some_iff (place : Ir.Location) (home : Home) :
    homes.get? place = some home ↔ (place, home) ∈ homes.entries := by
  obtain ⟨entries⟩ := homes
  unfold Distinct at distinct
  unfold get?
  induction entries with
  | nil => simp
  | cons entry rest ih =>
    obtain ⟨key, value⟩ := entry
    rw [map_cons, nodup_cons] at distinct
    by_cases same : place = key
    · subst place
      have absent : (key, home) ∉ rest := fun hmem =>
        distinct.1 (mem_map.mpr ⟨(key, home), hmem, rfl⟩)
      simp only [lookup_cons_self, Option.some.injEq, mem_cons, Prod.mk.injEq,
        true_and, absent, or_false]
      exact eq_comm
    · have miss : (place == key) = false := by simpa using same
      simp only [lookup_cons, miss, mem_cons, Prod.mk.injEq, same, false_and,
        false_or]
      exact ih distinct.2

theorem Distinct.uses_iff (register : Reg) :
    homes.uses register = true ↔ ∃ place, homes.get? place = some (.reg register) := by
  unfold uses
  rw [List.any_eq_true]
  constructor
  · rintro ⟨⟨place, home⟩, hmem, heq⟩
    have hhome : home = .reg register := by simpa using heq
    subst hhome
    exact ⟨place, (distinct.get?_eq_some_iff place _).mpr hmem⟩
  · rintro ⟨place, hget⟩
    exact ⟨(place, .reg register), (distinct.get?_eq_some_iff place _).mp hget, by simp⟩

end Homes

end ArmBackend.Frame
