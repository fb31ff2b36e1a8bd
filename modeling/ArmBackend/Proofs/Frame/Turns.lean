import ArmBackend.Proofs.Frame.Origin

/-!
# Whose turn it is

Frequent temporaries come first, as far as the pool goes, and then all other places in the order
of their first use.  Each takes the next register of the pool, or a slot once there is none.
-/

namespace List

variable {α : Type} [DecidableEq α]

theorem eraseDups_concat (list : List α) (last : α) :
    (list ++ [last]).eraseDups = list.eraseDups ++ if last ∈ list then [] else [last] := by
  by_cases old : last ∈ list <;> simp [eraseDups_append, removeAll, eraseDups_cons, old]

theorem nodup_eraseDups (list : List α) : list.eraseDups.Nodup := by
  induction list using reverseRecOn with
  | nil => exact nodup_nil
  | append_singleton list last ih =>
    rw [eraseDups_concat]
    split
    · simpa using ih
    · next fresh => exact concat_eq_append ▸ ih.concat (mt mem_eraseDups.mp fresh)

end List

namespace ArmBackend

open List

namespace Ir

def Location.temp? : Location → Option String
  | temp name => some name
  | _ => none

namespace Function

variable (function : Function)

/-- The places that the operands name, in turn, also in the index of an element. -/
def uses : List Location :=
  function.code.flatMap fun instr => instr.operands.flatMap Operand.places

/-- The temporaries that occur more than twice, in the order of their first occurrence. -/
def frequent : List Location :=
  let names := function.uses.filterMap Location.temp?
  (names.eraseDups.filter fun name => decide (2 < names.count name)).map .temp

/--
The places that are assigned a register or a slot, in turn.  Frequent temporaries come first,
as far as the pool goes.  All others come in the order of their first use, but for those that
are reserved as arrays before it and for the parameters that stay where they arrive.
-/
def assigned : List Location :=
  let first := function.frequent.take Machine.Reg.pool.length
  first ++ function.uses.eraseDups.filter fun place =>
    decide (place ∉ first ++ Frame.Ledger.arrived function) &&
      function.asks.lookup place == some none

end Function

end Ir

namespace Frame

/-- The tally of these occurrences. -/
structure Tally.Counts (tally : Tally) (names : List String) : Prop where
  order : tally.order = names.eraseDups.map fun name => (name, names.count name)
  index : ∀ name, tally.index.lookup name = names.eraseDups.findIdx? (· == name)

namespace Tally.Counts

variable {tally : Tally} {names : List String} (counts : tally.Counts names)
include counts

/-- One more occurrence of a temporary that was met before. -/
theorem recount {name : String} {place : Nat} (found : tally.index.lookup name = some place) :
    Counts { tally with order := tally.order.modify place fun entry => (entry.1, entry.2 + 1) }
      (names ++ [name]) := by
  rw [counts.index] at found
  obtain ⟨inside, same, _⟩ := findIdx?_eq_some_iff_getElem.mp found
  have same : names.eraseDups[place] = name := by simpa using same
  have known : name ∈ names := mem_eraseDups.mp (same ▸ getElem_mem inside)
  have distinct : (names ++ [name]).eraseDups = names.eraseDups := by
    simp [eraseDups_concat, known]
  refine ⟨?_, by simpa [distinct] using counts.index⟩
  rw [distinct]
  refine ext_getElem? fun other => ?_
  dsimp only
  rw [counts.order, getElem?_modify, getElem?_map, getElem?_map]
  cases entry : names.eraseDups[other]? with
  | none => rfl
  | some met =>
    -- No other entry has the name that is counted.
    have here : place = other ↔ met = name := by
      rw [← getElem?_inj inside (nodup_eraseDups names), entry, getElem?_eq_getElem inside, same,
        Option.some_inj, eq_comm]
    by_cases hit : met = name
    · simp [here, hit]
    · simp [here, hit, Ne.symm hit]

/-- The first occurrence of a temporary. -/
theorem enter {name : String} (found : tally.index.lookup name = none) :
    Counts ⟨tally.order ++ [(name, 1)], (name, tally.order.length) :: tally.index⟩
      (names ++ [name]) := by
  have absent := found
  rw [counts.index, findIdx?_eq_none_iff] at absent
  have fresh : name ∉ names := fun member => by
    simpa using absent name (mem_eraseDups.mpr member)
  have distinct : (names ++ [name]).eraseDups = names.eraseDups ++ [name] := by
    simp [eraseDups_concat, fresh]
  have length : tally.order.length = names.eraseDups.length := by
    rw [counts.order, length_map]
  refine ⟨?_, ?_⟩
  · have others : ∀ other ∈ names.eraseDups,
        (other, names.count other) = (other, (names ++ [name]).count other) := by
      intro other member
      have differ : name ≠ other := fun same => fresh (same ▸ mem_eraseDups.mp member)
      simp [differ]
    rw [distinct, map_append, ← map_congr_left others, counts.order]
    simp [count_eq_zero_of_not_mem fresh]
  · rw [distinct, length]
    exact Ir.lookup_appended counts.index found

theorem count (name : String) : (tally.count name).Counts (names ++ [name]) := by
  unfold Tally.count
  split
  · next place found => exact counts.recount found
  · next found => exact counts.enter found

theorem foldl (more : List String) : (more.foldl Tally.count tally).Counts (names ++ more) := by
  induction more generalizing tally names with
  | nil => simpa using counts
  | cons name rest ih => simpa using ih (counts.count name)

end Tally.Counts

/-- The counting loop counts what occurs in the code. -/
theorem Tally.counts_ofCode (code : List Ir.Instr) :
    (ofCode code).Counts (code.flatMap fun instr => instr.operands.flatMap Ir.Operand.temps) := by
  have flat : ofCode code = (code.flatMap fun instr =>
      instr.operands.flatMap Ir.Operand.temps).foldl count {} := by
    rw [foldl_flatMap]
    simp only [foldl_flatMap]
    rfl
  have start : Counts {} [] := ⟨rfl, fun _ => rfl⟩
  rw [flat]
  exact start.foldl _

/-- The temporaries that are counted more than twice, said without the loop. -/
theorem Allocation.hotTemps_eq (code : List Ir.Instr) :
    let names := code.flatMap fun instr => instr.operands.flatMap Ir.Operand.temps
    hotTemps code = names.eraseDups.filter fun name => decide (2 < names.count name) := by
  intro names
  rw [hotTemps, (Tally.counts_ofCode code).order, filter_map, map_map]
  exact map_id _

end Frame

theorem Ir.Function.frequent_eq (function : Function) :
    function.frequent = (Frame.Allocation.hotTemps function.code).map .temp := by
  have names (operand : Operand) : operand.places.filterMap Location.temp? = operand.temps := by
    induction operand with
    | element array index type ih => exact ih
    | _ => rfl
  rw [Frame.Allocation.hotTemps_eq]
  simp only [frequent, uses, filterMap_flatMap, names]

namespace Frame

open Machine

/-- The places for which words are asked. -/
def words (asks : List (Ir.Location × Option Nat)) : List Ir.Location :=
  asks.filterMap fun ask => if ask.2.isNone then some ask.1 else none

theorem words_asks (function : Ir.Function) : words function.asks = function.uses := by
  have single (instr : Ir.Instr) : words instr.asks = instr.operands.flatMap Ir.Operand.places := by
    unfold words Ir.Instr.asks
    rw [filterMap_append]
    split <;> simp [filterMap_map]
  simp only [words, Ir.Function.asks, filterMap_flatMap] at single ⊢
  simp only [single, Ir.Function.uses]

/-- The places that have had their turn once all this was asked. -/
def turns (function : Ir.Function) (asks : List (Ir.Location × Option Nat)) : List Ir.Location :=
  function.frequent.take Reg.pool.length ++ (words asks).eraseDups.filter fun place =>
    decide (place ∉ (Ledger.start function).placed) && function.asks.lookup place == some none

theorem turns_asks (function : Ir.Function) : turns function function.asks = function.assigned := by
  have placed : (Ledger.start function).placed =
      function.frequent.take Reg.pool.length ++ Ledger.arrived function := by
    rw [Ir.Function.frequent_eq, ← map_take]
    rfl
  rw [turns, words_asks, placed]
  rfl

theorem turns_concat {function : Ir.Function} {done rest : List (Ir.Location × Option Nat)}
    {ask : Ir.Location × Option Nat} (whole : function.asks = done ++ ask :: rest) :
    turns function (done ++ [ask]) = turns function done ++
      if ask.1 ∉ (done.foldl Ledger.give (Ledger.start function)).placed ∧ ask.2 = none
        then [ask.1] else [] := by
  obtain ⟨place, need⟩ := ask
  cases need with
  | some length => simp [turns, words]
  | none =>
    have more : words (done ++ [(place, none)]) = words done ++ [place] := by simp [words]
    have first : function.asks.lookup place = (done.lookup place).or (some none) := by
      rw [whole, lookup_append, lookup_cons_self]
    rw [turns, turns, more, eraseDups_concat, filter_append, append_assoc]
    congr 2
    cases before : done.lookup place with
    | none =>
      have fresh (need : Option Nat) : (place, need) ∉ done := fun member => by
        simpa using lookup_eq_none_iff.mp before _ member
      simp [Ledger.mem_run, words, filter_cons, first, before, fresh]
    | some need =>
      have member : (place, need) ∈ done := by
        obtain ⟨front, back, split, -⟩ := lookup_eq_some_iff.mp before
        simp [split]
      have taken := (Ledger.mem_run (Ledger.start function) done place).mpr
        (.inl (mem_map_of_mem (f := Prod.fst) member))
      cases need with
      | none => simp [words, member, taken]
      | some length =>
        by_cases old : place ∈ words done <;> simp [first, before, taken, old]

/-- The home that is given at an index of the order: a register of the pool, or else a slot. -/
inductive Home.Next (index : Nat) : Home → Prop where
  | reg {register : Reg} (pooled : Reg.pool[index]? = some register) : Next index (.reg register)
  | slot {offset : Int} (behind : Reg.pool.length ≤ index) (below : offset < 0) :
      Next index (.slot offset)

namespace Allocation

/-- The places have got homes in turn, and no others have homes of this kind. -/
structure Deals (places : List Ir.Location) (allocation : Allocation) : Prop where
  free : allocation.free = Reg.pool.drop places.length
  given : ∀ {index place}, (place, index) ∈ places.zipIdx →
    ∃ home, allocation.homes.get? place = some home ∧ home.Next index
  only : ∀ {place home index}, allocation.homes.get? place = some home → home.Next index →
    place ∈ places

namespace Deals

variable {places : List Ir.Location} {allocation : Allocation} {place : Ir.Location}
  {home : Home} {register : Reg} {index depth : Nat} (deals : allocation.Deals places)
include deals

/-- A place without a home is given one, in turn or not. -/
theorem set {more : List Ir.Location} {free : List Reg}
    (bare : allocation.homes.has place = false) (left : free = Reg.pool.drop (places ++ more).length)
    (isNext : more = [place] ∧ home.Next places.length ∨ more = [] ∧ ∀ index, ¬ home.Next index) :
    Deals (places ++ more) { homes := allocation.homes.set place home, free, depth } where
  free := left
  given {index query} listed := by
    rw [zipIdx_append, mem_append] at listed
    rcases listed with old | new
    · obtain ⟨other, found, isOther⟩ := deals.given old
      exact ⟨other, Homes.get?_set_of_bare bare found, isOther⟩
    · rcases isNext with ⟨rfl, isNext⟩ | ⟨rfl, -⟩
      · obtain ⟨rfl, rfl⟩ : query = place ∧ index = places.length := by simpa using new
        exact ⟨home, Homes.get?_set_self .., isNext⟩
      · cases new
  only {query other index} found isOther := by
    rw [Homes.get?_set] at found
    rw [mem_append]
    split at found
    · next same =>
        cases found
        rcases isNext with ⟨rfl, -⟩ | ⟨-, never⟩
        · exact .inr (mem_singleton.mpr same)
        · exact absurd isOther (never index)
    · exact .inl (deals.only found isOther)

theorem takeRegister {rest : List Reg} (bare : allocation.homes.has place = false)
    (next : allocation.free = register :: rest) :
    Deals (places ++ [place])
      { allocation with homes := allocation.homes.set place (.reg register), free := rest } := by
  have free := deals.free.symm.trans next
  refine deals.set bare ?_ (.inl ⟨rfl, .reg ?_⟩)
  · rw [length_append, ← drop_drop, free]
    rfl
  · rw [← head?_drop, free, head?_cons]

theorem takeSlot {offset : Int} (bare : allocation.homes.has place = false)
    (next : allocation.free = []) (below : offset < 0) :
    Deals (places ++ [place])
      { allocation with homes := allocation.homes.set place (.slot offset), depth } := by
  have full := drop_eq_nil_iff.mp (deals.free.symm.trans next)
  refine deals.set bare ?_ (.inl ⟨rfl, .slot full below⟩)
  rw [length_append, ← drop_drop, ← deals.free, next, drop_nil]

end Deals

end Allocation

end Frame

end ArmBackend
