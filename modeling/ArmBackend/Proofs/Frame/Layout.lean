import ArmBackend.Proofs.Frame.Turns

/-!
# Frames are complete and never overlap

Allocation follows the account of the frame step by step: it fails exactly when the
bytes asked for go beyond reach, and otherwise every place that the code names has a
home, apart from all others and from the saved registers.
-/

namespace ArmBackend.Frame

open List

open Machine

namespace Ledger

/-- The allocation has done what the account says. -/
structure Matches (ledger : Ledger) (allocation : Allocation) : Prop where
  placed : ∀ place, allocation.homes.has place = true ↔ place ∈ ledger.placed
  registers : allocation.free.length = ledger.registers
  depth : allocation.depth = ledger.total

/-- What a step of allocation leaves behind, and which places have had their turn by then. -/
structure Follows (function : Ir.Function) (before : Allocation) (ledger : Ledger)
    (places turned : List Ir.Location) (after : Allocation) : Prop where
  sound : after.Sound function.parameters
  agrees : ledger.Matches after
  advances : before.Advances function after
  deals : before.Deals places → after.Deals turned

/-- A step of allocation ends as the account demands. -/
def Tracks (function : Ir.Function) (before : Allocation) (ledger : Ledger)
    (places turned : List Ir.Location) : Except Nat Allocation → Prop
  | .ok after => Follows function before ledger places turned after
  | .error _ => Allocation.reach < ledger.total

variable {depth bytes : Nat}

theorem grow_ok (fits : depth + bytes ≤ Allocation.reach) :
    Allocation.grow depth bytes = .ok (depth + bytes) := by
  have bounded : Allocation.reach < Allocation.countLimit := by decide
  have least : min (depth + bytes) Allocation.countLimit = depth + bytes := by omega
  simp [Allocation.grow, least, fits]

theorem grow_error (excess : Allocation.reach < depth + bytes) :
    Allocation.grow depth bytes = .error (min (depth + bytes) Allocation.countLimit) := by
  have bounded : Allocation.reach < Allocation.countLimit := by decide
  have large : ¬ min (depth + bytes) Allocation.countLimit ≤ Allocation.reach := by omega
  simp only [Allocation.grow]
  rw [if_neg large]

section

variable {function : Ir.Function} {ledger : Ledger} {allocation : Allocation}
  {places turned : List Ir.Location}

theorem Tracks.bind {result : Except Nat Allocation} {next : Ledger} {last : List Ir.Location}
    {step : Allocation → Except Nat Allocation}
    (tracks : Tracks function allocation ledger places turned result)
    (grows : ledger.total ≤ next.total)
    (follows : ∀ after, Follows function allocation ledger places turned after →
      Tracks function after next turned last (step after)) :
    Tracks function allocation next places last (result >>= step) := by
  cases result with
  | error bytes => exact Nat.lt_of_lt_of_le tracks grows
  | ok middle =>
    have later := follows middle tracks
    change Tracks function allocation next places last (step middle)
    cases done : step middle with
    | error bytes =>
      rw [done] at later
      exact later
    | ok after =>
      rw [done] at later
      exact ⟨later.sound, later.agrees, tracks.advances.trans later.advances,
        later.deals ∘ tracks.deals⟩

theorem Matches.place (agrees : ledger.Matches allocation) (place : Ir.Location) (home : Home)
    (query : Ir.Location) :
    (allocation.homes.set place home).has query = true ↔ query ∈ place :: ledger.placed := by
  rw [Homes.has_set, Bool.or_eq_true, decide_eq_true_iff, mem_cons, agrees.placed]

theorem Matches.notMem (agrees : ledger.Matches allocation) {place : Ir.Location}
    (bare : allocation.homes.has place = false) : place ∉ ledger.placed := by
  rw [← agrees.placed, bare]
  exact Bool.false_ne_true

variable (sound : allocation.Sound function.parameters) (agrees : ledger.Matches allocation)
include sound agrees

/-- A range of bytes below all that were given. -/
theorem tracks_takeBytes {place : Ir.Location} {home : Nat → Home} (bytes : Nat)
    (bare : allocation.homes.has place = false)
    (memory : ∀ depth register, home depth ≠ .reg register)
    (within : (home (allocation.depth + bytes)).Within (-(allocation.depth + bytes : Nat))
      (-allocation.depth))
    (granted : ∀ depth, Granted function place (home depth))
    (deals : allocation.Deals places → Allocation.Deals turned
      { allocation with
        homes := allocation.homes.set place (home (allocation.depth + bytes))
        depth := allocation.depth + bytes }) :
    Tracks function allocation
      { ledger with placed := place :: ledger.placed, requests := ledger.requests ++ [bytes] }
      places turned
      (do let depth ← Allocation.grow allocation.depth bytes
          .ok { allocation with homes := allocation.homes.set place (home depth), depth }) := by
  have after : (ledger.requests ++ [bytes]).sum = allocation.depth + bytes := by
    rw [agrees.depth, sum_append]
    simp [total]
  by_cases fits : allocation.depth + bytes ≤ Allocation.reach
  · rw [grow_ok fits]
    exact ⟨sound.takeBytes place (memory _) (Nat.le_add_right _ _) fits within,
      ⟨agrees.place place _, agrees.registers, after.symm⟩,
      .give rfl bare (granted _), deals⟩
  · rw [grow_error (Nat.lt_of_not_le fits)]
    have excess : Allocation.reach < (ledger.requests ++ [bytes]).sum := by omega
    exact excess

/-- One step, which may be granted if the place has no home. -/
theorem tracks_give (ask : Ir.Location × Option Nat)
    (first : allocation.homes.has ask.1 = false → function.asks.lookup ask.1 = some ask.2) :
    Tracks function allocation (ledger.give ask) places
      (places ++ if ask.1 ∉ ledger.placed ∧ ask.2 = none then [ask.1] else [])
      (allocation.give ask) := by
  obtain ⟨place, need⟩ := ask
  unfold Allocation.give
  cases bare : allocation.homes.has place with
  | true =>
    have placed := (agrees.placed place).mp bare
    have same : ledger.give (place, need) = ledger := by
      cases need <;> exact if_pos placed
    rw [same, if_pos rfl]
    exact ⟨sound, agrees, .refl _ _, fun deals => by simpa [placed] using deals⟩
  | false =>
    rw [if_neg Bool.false_ne_true]
    obtain ⟨named, reserves⟩ := Ir.Function.of_lookup_asks (first bare)
    cases need with
    | none =>
      replace named := named rfl
      rw [if_pos ⟨agrees.notMem bare, rfl⟩]
      simp only [give, ensure, Allocation.assign]
      rw [if_neg (agrees.notMem bare)]
      cases next : allocation.free with
      | cons register rest =>
        have count : ledger.registers = rest.length + 1 := by
          rw [← agrees.registers, next]
          rfl
        rw [if_pos (by omega)]
        have pooled : register ∈ Reg.pool := sound.free_suffix.subset (next ▸ mem_cons_self)
        exact ⟨sound.takeRegister place next,
          ⟨agrees.place place _, by rw [count]; rfl, agrees.depth⟩,
          .give rfl bare (.register pooled named), fun deals => deals.takeRegister bare next⟩
      | nil =>
        have empty : ¬ 0 < ledger.registers := by
          rw [← agrees.registers, next]
          exact Nat.lt_irrefl 0
        rw [if_neg empty]
        have within := (Home.within_slot (-(allocation.depth + 8 : Nat))).mono (Int.le_refl _)
          (by omega : _ ≤ (-allocation.depth : Int))
        have takes := tracks_takeBytes sound agrees 8 bare (by simp) within
          (fun depth => .slot (-depth) named) fun deals : allocation.Deals places =>
            deals.takeSlot bare next (by omega)
        rw [next] at takes
        exact takes
    | some length =>
      obtain ⟨instr, reserves, rfl⟩ := reserves length rfl
      rw [if_neg (by simp)]
      simp only [give]
      rw [if_neg (agrees.notMem bare)]
      exact tracks_takeBytes sound agrees _ bare (by simp)
        ((Home.within_array _ _).mono (Int.le_refl _) (by omega)) (fun depth => .array (-depth) reserves)
        fun deals => deals.set bare (by simpa using deals.free) (.inr ⟨rfl, nofun⟩)

omit agrees in
/-- What is asked behind what was done. -/
theorem tracks_run {done asks : List (Ir.Location × Option Nat)}
    (whole : function.asks = done ++ asks)
    (agrees : (done.foldl give (start function)).Matches allocation) :
    Tracks function allocation (ofFunction function) (turns function done) function.assigned
      (asks.foldlM Allocation.give allocation) := by
  rw [ofFunction_eq, ← turns_asks]
  induction asks generalizing done allocation with
  | nil =>
    rw [append_nil] at whole
    exact ⟨sound, whole ▸ agrees, .refl _ _, whole ▸ id⟩
  | cons ask rest ih =>
    rw [foldlM_cons]
    refine (tracks_give sound agrees ask fun bare => ?_).bind ?_ fun after follows => ?_
    · have fresh : done.lookup ask.1 = none := by
        refine lookup_eq_none_iff.mpr fun old member => bne_iff_ne.mpr fun same => ?_
        refine agrees.notMem bare ((mem_run ..).mpr (.inl ?_))
        exact same ▸ mem_map_of_mem member
      rw [whole, lookup_append, fresh, Option.none_or, lookup_cons_self]
    · rw [whole, foldl_append]
      exact total_le_run _ rest
    · rw [← turns_concat whole]
      refine ih follows.sound (whole.trans (append_cons ..)) ?_
      rw [foldl_append]
      exact follows.agrees

/-- Frequent temporaries take registers one by one; no other place gets another home. -/
theorem placeHot_spec (names : List String) :
    (allocation.placeHot names).Sound function.parameters ∧
      Matches { ledger with
        placed := ((names.take ledger.registers).map .temp).reverse ++ ledger.placed
        registers := ledger.registers - names.length } (allocation.placeHot names) ∧
      (∀ place, (∀ name ∈ names, place ≠ .temp name) →
        (allocation.placeHot names).homes.get? place = allocation.homes.get? place) ∧
      ∀ place home, (allocation.placeHot names).homes.get? place = some home →
        allocation.homes.get? place = some home ∨ Granted function place home := by
  induction names generalizing ledger allocation with
  | nil =>
    exact ⟨sound, ⟨by simpa [Allocation.placeHot] using agrees.placed, agrees.registers,
      agrees.depth⟩, fun _ _ => rfl, fun _ _ => .inl⟩
  | cons name rest ih =>
    cases next : allocation.free with
    | nil =>
      have empty : ledger.registers = 0 := by rw [← agrees.registers, next]; rfl
      have same : allocation.placeHot (name :: rest) = allocation := by
        simp [Allocation.placeHot, next]
      rw [same]
      refine ⟨sound, ⟨?_, ?_, agrees.depth⟩, fun _ _ => rfl, fun _ _ => .inl⟩
      · simpa [empty] using agrees.placed
      · simp [next, empty]
    | cons register others =>
      have count : ledger.registers = others.length + 1 := by
        rw [← agrees.registers, next]
        rfl
      have same : allocation.placeHot (name :: rest) = Allocation.placeHot rest
          { allocation with
            homes := allocation.homes.set (.temp name) (.reg register), free := others } := by
        simp [Allocation.placeHot, next]
      have afterAgrees : Matches { ledger with
          placed := .temp name :: ledger.placed, registers := others.length }
          { allocation with
            homes := allocation.homes.set (.temp name) (.reg register), free := others } :=
        ⟨agrees.place (.temp name) _, rfl, agrees.depth⟩
      obtain ⟨finalSound, finalAgrees, kept, origin⟩ :=
        ih (sound.takeRegister (.temp name) next) afterAgrees
      rw [same]
      refine ⟨finalSound, ⟨?_, ?_, finalAgrees.depth⟩, fun place differ => ?_,
        fun place home found => ?_⟩
      · intro query
        rw [finalAgrees.placed, count]
        simp [take_succ_cons]
      · rw [finalAgrees.registers, count]
        simp
      · rw [forall_mem_cons] at differ
        rw [kept place differ.2, Homes.get?_set_ne _ _ differ.1]
      · refine (origin place home found).elim (fun before => ?_) .inr
        rw [Homes.get?_set] at before
        split at before
        · next temp =>
            cases before
            subst temp
            exact .inr (.frequent name (sound.free_suffix.subset (next ▸ mem_cons_self)))
        · exact .inl before

end

open Allocation (begun)

theorem begun_spec (function : Ir.Function) :
    (begun function).Sound function.parameters ∧ (start function).Matches (begun function) ∧
      (∀ place, (∀ name ∈ Allocation.hotTemps function.code, place ≠ .temp name) →
        (begun function).homes.get? place =
          (Allocation.placeParameters function.isLeaf function.parameters).get? place) ∧
      ∀ place home, (begun function).homes.get? place = some home →
        (Allocation.placeParameters function.isLeaf function.parameters).get? place = some home ∨
          Granted function place home := by
  have begins : Matches ⟨arrived function, Reg.pool.length, []⟩
      { homes := Allocation.placeParameters function.isLeaf function.parameters } := by
    refine ⟨?_, rfl, rfl⟩
    intro place
    rw [Allocation.placeParameters_eq, Allocation.has_placeParameter]
    simp [Homes.has, arrived]
  obtain ⟨sound, agrees, homes⟩ := placeHot_spec
    (Allocation.sound_placeParameters function.isLeaf function.parameters) begins
    (Allocation.hotTemps function.code)
  refine ⟨sound, ⟨?_, ?_, agrees.depth⟩, homes⟩
  · intro place
    rw [begun, agrees.placed]
    simp [start]
  · rw [begun, agrees.registers]
    simp only [start, length_take]
    omega

theorem tracks_ofFunction (function : Ir.Function) :
    Tracks function (begun function) (ofFunction function)
      (function.frequent.take Reg.pool.length) function.assigned
      (Allocation.ofFunction function) := by
  rw [Allocation.ofFunction_eq, ← append_nil (take ..)]
  exact tracks_run (begun_spec function).1 (nil_append _).symm (begun_spec function).2.1

end Ledger

namespace Layout

/-- What a frame owes to the function that runs in it. -/
structure Sound (function : Ir.Function) (layout : Layout) : Prop where
  /-- every place of an operand, also inside an index, has a home -/
  complete : ∀ instr ∈ function.code, ∀ operand ∈ instr.operands, ∀ place ∈ operand.places,
    ∃ home, layout.homes.get? place = some home
  /-- the homes of two places have no register and no byte in common -/
  apart : ∀ left right leftHome rightHome, layout.homes.get? left = some leftHome →
    layout.homes.get? right = some rightHome → left ≠ right → leftHome.Apart rightHome
  /-- bytes lie in the spill area, or where a parameter came on the stack -/
  inside : ∀ place home, layout.homes.get? place = some home →
    home.Within (-layout.spillArea) 0 ∨
      Allocation.OnStack function.parameters place home ∧
        ∀ byte, home.Covers byte → (recordSize : Int) ≤ byte
  /-- the saved registers lie apart from all homes -/
  saves : ∀ byte : Int, -layout.size ≤ byte → byte < -layout.size + 8 * layout.saved.length →
    ∀ place home, layout.homes.get? place = some home → ¬ home.Covers byte
  aligned : 16 ∣ layout.size
  /-- the saved registers are those of the pool that some place lives in, in their order -/
  saved_sublist : layout.saved.Sublist Reg.pool
  saved_iff : ∀ register, register ∈ layout.saved ↔
    register ∈ Reg.pool ∧ ∃ place, layout.homes.get? place = some (.reg register)
  /-- the other registers that values live in are those of arguments -/
  registers : ∀ place register, layout.homes.get? place = some (.reg register) →
    register ∈ Reg.arguments ∨ register ∈ Reg.pool
  reached : layout.spillArea ≤ Allocation.reach

variable {layout : Layout} {function : Ir.Function}

theorem size_eq (reached : layout.spillArea ≤ Allocation.reach)
    (few : layout.saved.length ≤ Reg.pool.length) :
    layout.size = (layout.spillArea + 8 * layout.saved.length + 15) / 16 * 16 := by
  have ten : Reg.pool.length = 10 := rfl
  unfold Allocation.reach at reached
  unfold size largestSize
  omega

theorem sound_of_allocation {allocation : Allocation} (sound : allocation.Sound function.parameters)
    (agrees : (Ledger.ofFunction function).Matches allocation) (leaf : Bool)
    (moves : List (Reg × Home)) :
    Sound function
      { homes := allocation.homes
        saved := Reg.pool.filter allocation.homes.uses
        spillArea := allocation.depth
        leaf := leaf
        moves := moves } := by
  have sublist : (Reg.pool.filter allocation.homes.uses).Sublist Reg.pool := filter_sublist
  refine ⟨?_, ?_, ?_, ?_, ?_, sublist, ?_, fun _ _ => sound.known, sound.within_reach⟩
  · intro instr listed operand hoperand place named
    have asked : (place, none) ∈ function.asks := mem_flatMap.mpr ⟨instr, listed, by
      simpa [Ir.Instr.asks] using ⟨operand, hoperand, named⟩⟩
    refine Option.isSome_iff_exists.mp ((agrees.placed place).mpr ?_)
    rw [Ledger.ofFunction_eq, Ledger.mem_run]
    exact .inl (mem_map_of_mem asked)
  · exact fun _ _ _ _ => sound.apart
  · intro place home found
    refine (sound.ranges found).imp_right fun arrived => ⟨arrived, ?_⟩
    obtain ⟨offset, above, rfl⟩ := arrived.within
    intro byte covered
    exact Int.le_trans (Int.ofNat_le.mpr above) covered.1
  · intro byte low high place home found covered
    rw [size_eq sound.within_reach sublist.length_le] at low high
    simp only at low high
    rcases sound.ranges found with within | arrived
    · have bounds := within byte covered
      omega
    · obtain ⟨offset, above, rfl⟩ := arrived.within
      have bounds := covered.1
      omega
  · rw [size_eq sound.within_reach sublist.length_le]
    exact Nat.dvd_mul_left 16 _
  · intro register
    rw [mem_filter, sound.distinct.uses_iff]

theorem ofFunction_ok (laid : Layout.ofFunction function = .ok layout) :
    ∃ allocation,
      Ledger.Follows function (Allocation.begun function) (Ledger.ofFunction function)
        (function.frequent.take Reg.pool.length) function.assigned allocation ∧ layout =
          { homes := allocation.homes
            saved := Reg.pool.filter allocation.homes.uses
            spillArea := allocation.depth
            leaf := function.isLeaf
            moves := if function.isLeaf then []
              else argumentMoves allocation.homes function.parameters } := by
  have tracks := Ledger.tracks_ofFunction function
  unfold Layout.ofFunction at laid
  cases result : Allocation.ofFunction function with
  | error bytes =>
    rw [result] at laid
    cases laid
  | ok allocation =>
    rw [result] at laid tracks
    cases laid
    exact ⟨allocation, tracks, rfl⟩

theorem sound_ofFunction
    (laid : Layout.ofFunction function = .ok layout) : layout.Sound function := by
  obtain ⟨allocation, follows, rfl⟩ := ofFunction_ok laid
  exact sound_of_allocation follows.sound follows.agrees _ _

theorem ofFunction_error_iff (function : Ir.Function) :
    (∃ bytes, Layout.ofFunction function = .error bytes) ↔ Exceeds function := by
  have tracks := Ledger.tracks_ofFunction function
  rw [exceeds_iff]
  unfold Layout.ofFunction
  cases result : Allocation.ofFunction function with
  | error bytes =>
    rw [result] at tracks
    exact ⟨fun _ => tracks, fun _ => ⟨bytes, rfl⟩⟩
  | ok allocation =>
    rw [result] at tracks
    have within := tracks.sound.within_reach
    rw [tracks.agrees.depth] at within
    constructor
    · rintro ⟨bytes, impossible⟩
      cases impossible
    · intro excess
      omega

/--
A function has no frame exactly when its slots and arrays at some point ask for more
than can be reached; every frame is complete and free of overlaps.
-/
theorem ofFunction_complete_and_disjoint (function : Ir.Function) :
    ((∃ bytes, Layout.ofFunction function = .error bytes) ↔ Exceeds function) ∧
      ∀ layout, Layout.ofFunction function = .ok layout → layout.Sound function :=
  ⟨ofFunction_error_iff function, fun _ laid => sound_ofFunction laid⟩

/-- A leaf with a parameter on the stack, an array, and more temporaries than registers. -/
def crowded : Ir.Function where
  name := "crowded"
  parameters := ["a", "b", "c", "d", "e", "f", "g", "h", "i"].map (Ir.Operand.param · .int)
  code :=
    Ir.Instr.allocArray (.var "row" .int) 3 ::
      ["t0", "t1", "t2", "t3", "t4", "t5", "t6", "t7", "t8", "t9", "t10"].map fun name =>
        .move (.temp name .int) (.param "i" .int)

theorem crowded_complete_and_disjoint :
    ∃ layout, Layout.ofFunction crowded = .ok layout ∧
      layout.homes.get? (.temp "t10") = some (.slot (-32)) ∧ layout.Sound crowded := by
  have laid : ∃ layout, Layout.ofFunction crowded = .ok layout ∧
      layout.homes.get? (.temp "t10") = some (.slot (-32)) := ⟨_, rfl, rfl⟩
  obtain ⟨layout, found, spilled⟩ := laid
  exact ⟨layout, found, spilled, (ofFunction_complete_and_disjoint crowded).2 layout found⟩

/-! ## Where homes come from -/

/-- The parameter at the position has the place as its own, and it arrives in the home. -/
def Arrives (function : Ir.Function) (place : Ir.Location) (home : Home) : Prop :=
  ∃ position, (function.parameters[position]?).bind Ir.Operand.location? = some place ∧
    Allocation.arrival? function.isLeaf position = some home

section

variable {function : Ir.Function} {layout : Layout} {home : Home} {instr : Ir.Instr}
  {place : Ir.Location} (laid : Layout.ofFunction function = .ok layout)
include laid

theorem homes_ofFunction :
    (∀ place home, (∀ name ∈ Allocation.hotTemps function.code, place ≠ .temp name) →
      (Allocation.placeParameters function.isLeaf function.parameters).get? place = some home →
        layout.homes.get? place = some home) ∧
    ∀ place home, layout.homes.get? place = some home →
      (Allocation.placeParameters function.isLeaf function.parameters).get? place = some home ∨
        Granted function place home := by
  obtain ⟨allocation, follows, rfl⟩ := ofFunction_ok laid
  obtain ⟨-, -, same, origin⟩ := Ledger.begun_spec function
  exact ⟨fun place home differ arrived =>
      follows.advances.keeps ((same place differ).trans arrived),
    fun place home found => (follows.advances.grants found).elim (origin place home) .inr⟩

theorem home_of_arrival {position : Nat}
    (named : (function.parameters[position]?).bind Ir.Operand.location? = some place)
    (alone : ∀ other, (function.parameters[other]?).bind Ir.Operand.location? = some place →
      other = position) (steady : ∀ name ∈ Allocation.hotTemps function.code, place ≠ .temp name)
    (arrives : Allocation.arrival? function.isLeaf position = some home) :
    layout.homes.get? place = some home := by
  refine (homes_ofFunction laid).1 place home steady ?_
  rw [Allocation.placeParameters_eq]
  obtain ⟨parameter, there, location⟩ := Option.bind_eq_some_iff.mp named
  refine Allocation.get?_placeParameter_of_all (fun entry member same => ?_)
    (.inr ⟨(parameter, position), mem_zipIdx_iff_getElem?.mpr there, location⟩)
  have listed := mem_zipIdx_iff_getElem?.mp member
  rw [alone entry.2 (by rw [listed]; exact same)]
  exact arrives

theorem origin (found : layout.homes.get? place = some home) :
    Arrives function place home ∨ Granted function place home := by
  refine ((homes_ofFunction laid).2 place home found).imp_left fun arrived => ?_
  rw [Allocation.placeParameters_eq] at arrived
  rcases Allocation.get?_placeParameter _ _ arrived with none | ⟨entry, member, place, home⟩
  · cases none
  · have listed := mem_zipIdx_iff_getElem?.mp member
    exact ⟨entry.2, by rw [listed]; exact place, home⟩

theorem reserves_of_array {base : Int} {length : Nat}
    (found : layout.homes.get? place = some (.array base length)) :
    ∃ instr, function.Reserves place instr ∧ length = Allocation.arrayLength instr := by
  rcases origin laid found with ⟨position, _, arrives⟩ | granted
  · obtain ⟨offset, _, impossible⟩ := Allocation.arrival?_memory arrives (by simp)
    cases impossible
  · cases granted with
    | array base reserves => exact ⟨_, reserves, rfl⟩

theorem array_of_reserves {name : String} (reserves : function.Reserves (.var name) instr)
    (separate : ¬ function.UsesScalar (.var name)) :
    ∃ base length, layout.homes.get? (.var name) = some (.array base length) := by
  obtain ⟨listed, _, defined⟩ := reserves
  obtain ⟨dest, written, named⟩ := Option.bind_eq_some_iff.mp defined
  have placed : .var name ∈ dest.places := by
    cases dest <;> cases named
    exact mem_singleton_self _
  obtain ⟨home, found⟩ := (sound_ofFunction laid).complete instr listed dest
    (by simp [Ir.Instr.operands, written]) _ placed
  rcases origin laid found with ⟨position, place, _⟩ | granted
  · obtain ⟨parameter, here, same⟩ := Option.bind_eq_some_iff.mp place
    exact absurd (.inl ⟨parameter, mem_of_getElem? here, same⟩) separate
  · cases granted with
    | register _ named | slot _ named => exact absurd (.inr named) separate
    | array base _ => exact ⟨base, _, found⟩

theorem mem_pool_of_not_leaf (calls : function.isLeaf = false) {register : Reg}
    (found : layout.homes.get? place = some (.reg register)) : register ∈ Reg.pool := by
  rcases origin laid found with ⟨position, _, arrives⟩ | granted
  · rw [calls] at arrives
    unfold Allocation.arrival? at arrives
    split at arrives <;> cases arrives
  · cases granted with
    | frequent _ pooled | register pooled _ => exact pooled

end

end Layout

end ArmBackend.Frame
