import ArmBackend.Proofs.Frame.Layout

/-!
# Registers are given in order

A frame that is laid out gives the registers of the pool to frequent temporaries first and to
all other places in the order of their first use.  A place is spilled only when no register
is left.
-/

namespace ArmBackend.Frame

open List

open Machine

namespace Allocation

namespace Deals

variable {places : List Ir.Location} {allocation : Allocation} {place : Ir.Location}
  {home : Home} {register : Reg} {index : Nat} (deals : allocation.Deals places)
include deals

theorem placeHot {names : List String} (distinct : names.Nodup)
    (bare : ∀ name ∈ names, allocation.homes.has (.temp name) = false) :
    Deals (places ++ (names.take allocation.free.length).map .temp) (allocation.placeHot names) := by
  induction names generalizing allocation places with
  | nil => simpa [Allocation.placeHot] using deals
  | cons name rest ih =>
    cases next : allocation.free with
    | nil => simpa [Allocation.placeHot, next] using deals
    | cons register others =>
      obtain ⟨other, distinct⟩ := nodup_cons.mp distinct
      obtain ⟨here, bare⟩ := forall_mem_cons.mp bare
      have later := ih (deals.takeRegister here next) distinct fun query member => by
        rw [Homes.has_set, bare query member]
        simpa using ne_of_mem_of_not_mem member other
      simpa [Allocation.placeHot, next] using later

theorem index_of_get? (found : allocation.homes.get? place = some home) (isNext : home.Next index) :
    ∃ index, places[index]? = some place ∧ home.Next index := by
  obtain ⟨index, listed⟩ := getElem?_of_mem (deals.only found isNext)
  obtain ⟨other, same, isOther⟩ := deals.given (mem_zipIdx_iff_getElem?.mpr listed)
  cases found.symm.trans same
  exact ⟨index, listed, isOther⟩

theorem get?_of_index (listed : places[index]? = some place)
    (pooled : Reg.pool[index]? = some register) :
    allocation.homes.get? place = some (.reg register) := by
  obtain ⟨home, found, isNext⟩ := deals.given (mem_zipIdx_iff_getElem?.mpr listed)
  cases isNext with
  | reg same => exact Option.some.inj (same.symm.trans pooled) ▸ found
  | slot behind => exact absurd (getElem?_eq_none behind) (by simp [pooled])

end Deals

/-- Parameters that stay where they arrive take nothing from the pool. -/
theorem deals_placeParameters (leaf : Bool) (parameters : List Ir.Operand) :
    Deals [] { homes := placeParameters leaf parameters } where
  free := rfl
  given listed := by cases listed
  only {place home index} found isNext := by
    have sound := sound_placeParameters leaf parameters
    cases isNext with
    | reg pooled => exact absurd (mem_of_getElem? pooled) (sound.taken found)
    | @slot offset behind below =>
      rcases sound.ranges found with within | arrived
      · have bounds := within offset ⟨Int.le_refl _, by omega⟩
        simp only at bounds
        omega
      · obtain ⟨incoming, above, same⟩ := arrived.within
        cases same
        omega

variable {function : Ir.Function}
  (named : ∀ parameter ∈ function.parameters, ∃ name type, parameter = .param name type)
include named

theorem deals_begun :
    (begun function).Deals (function.frequent.take Reg.pool.length) := by
  rw [Ir.Function.frequent_eq, ← map_take]
  refine (deals_placeParameters function.isLeaf function.parameters).placeHot
    (hotTemps_eq function.code ▸ (nodup_eraseDups _).filter _) fun name _ => ?_
  rw [Bool.eq_false_iff, ne_eq, placeParameters_eq, has_placeParameter]
  rintro (none | arrived)
  · cases none
  · obtain ⟨⟨parameter, position⟩, listed, place⟩ := mem_filterMap.mp arrived
    obtain ⟨_, _, rfl⟩ := named parameter (fst_mem_of_mem_zipIdx listed)
    split at place <;> cases place

end Allocation

namespace Layout

/-- The place lives in a slot below the frame pointer. -/
def Spills (layout : Layout) (place : Ir.Location) : Prop :=
  ∃ offset : Int, offset < 0 ∧ layout.homes.get? place = some (.slot offset)

/-- The place lives in a register of the pool. -/
def Holds (layout : Layout) (place : Ir.Location) (register : Reg) : Prop :=
  register ∈ Reg.pool ∧ layout.homes.get? place = some (.reg register)

/-- Which places get the registers of the pool. -/
structure Orderly (function : Ir.Function) (layout : Layout) : Prop where
  /-- a place is spilled only when every register of the pool is in use -/
  spills_last : ∀ place, layout.Spills place →
    ∀ register ∈ Reg.pool, ∃ holder, layout.Holds holder register
  /-- no frequent temporary is spilled while another place has a register of the pool -/
  frequent_first : ∀ spilled ∈ function.frequent, layout.Spills spilled →
    ∀ holder register, layout.Holds holder register → holder ∈ function.frequent
  /-- the places in order are those with a register of the pool and those that are spilled -/
  assigned_iff : ∀ place, place ∈ function.assigned ↔
    layout.Spills place ∨ ∃ register, layout.Holds place register
  /-- the registers are given in turn, from `x19` on -/
  in_turn : ∀ (index : Fin 10) place, function.assigned[index.val]? = some place →
    layout.homes.get? place = some (.reg (.x ⟨19 + index, by omega⟩))

variable {function : Ir.Function} {layout : Layout}

/-- Eleven frequent temporaries behind a variable. -/
def pressed : Ir.Function where
  name := "pressed"
  parameters := [.param "n" .int]
  code :=
    Ir.Instr.allocArray (.var "row" .int) 2 :: .move (.var "sum" .int) (.param "n" .int) ::
      ["t0", "t1", "t2", "t3", "t4", "t5", "t6", "t7", "t8", "t9", "t10"].map fun name =>
        .binary .add (.temp name .int) (.temp name .int)
          (.element "row" (.temp name .int) .int)

end Layout

end ArmBackend.Frame
