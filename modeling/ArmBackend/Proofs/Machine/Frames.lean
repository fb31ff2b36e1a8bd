import ArmBackend.Proofs.Machine.Operands

/-!
# Entering and leaving a function

The prologue saves the frame pointer, the return address and the registers of the pool
that the function uses, and settles the arguments in their homes.  The epilogue brings back
what was saved.
-/

namespace ArmBackend.Frame

open Machine

variable {position : Nat} {register : Reg}

theorem Convention.lt_of_register? (found : register? position = some register) :
    position < registerCount :=
  (List.getElem?_eq_some_iff.mp found).1

variable {offset : Nat}

theorem Convention.incoming?_eq_some (found : incoming? position = some offset) :
    registerCount ≤ position ∧ offset = Layout.recordSize + 8 * (position - registerCount) := by
  unfold incoming? at found
  split at found
  · cases found
  · cases found
    omega

/-- A leaf leaves an argument in its register. -/
theorem Allocation.arrival?_of_register? (found : Convention.register? position = some register) :
    arrival? true position = some (.reg register) := by
  have early := Convention.lt_of_register? found
  simp [arrival?, Convention.incoming?, early, found]

end ArmBackend.Frame

namespace ArmBackend.Machine

open List Option

open ArmBackend.Frame

/-! ## Saved registers -/

variable {home' : Home} {other : Ir.Location} {position : Nat} {register : Reg} {move : Reg × Home}
  {after : State} {low : Word}

section

variable (platform : Platform)

/-- The code that stores registers in a row, from an index on. -/
def saves (registers : List Reg) (start : Nat) : List Instr :=
  (registers.zipIdx start).map fun entry => .str entry.1 .sp (Layout.saveOffset entry.2)

/-- The code that loads registers in a row, from an index on. -/
def restores (registers : List Reg) (start : Nat) : List Instr :=
  (registers.zipIdx start).map fun entry => .ldr entry.1 .sp (Layout.saveOffset entry.2)

/-- The words for registers in a row. -/
def saveArea (sp : Word) (start count : Nat) : Span :=
  ⟨sp + BitVec.ofNat 64 (8 * start), 8 * count⟩

variable {start count first few : Nat}

theorem saveArea_inside (sp : Word) (low : start ≤ first)
    (high : first + few ≤ start + count) (small : 8 * count ≤ 2 ^ 64) :
    (saveArea sp first few).Inside (saveArea sp start count) := by
  have base : sp + BitVec.ofNat 64 (8 * first) =
      sp + BitVec.ofNat 64 (8 * start) + BitVec.ofNat 64 (8 * (first - start)) := by
    rw [BitVec.add_assoc, ← BitVec.ofNat_add, ← Nat.mul_add, Nat.add_sub_cancel' low]
  unfold saveArea
  rw [base]
  exact @Span.inside_of_offset ⟨sp + BitVec.ofNat 64 (8 * start), 8 * count⟩ (8 * (first - start))
    (8 * few) (by dsimp only; omega) small

/-- Registers are stored in words of their own. -/
theorem saves_spec (registers : List Reg) (start : Nat)
    (few : 8 * (start + registers.length) ≤ 2 ^ 64) (state : State) :
    Confined [] [saveArea (state.get .sp) start registers.length] state
      (execAll platform (saves registers start) state) ∧
    ∀ index register, registers[index]? = some register →
      (execAll platform (saves registers start) state).memory.load
        (state.get .sp + BitVec.ofNat 64 (8 * (start + index))) = state.get register := by
  induction registers generalizing start state with
  | nil => exact ⟨.refl .., by simp⟩
  | cons register rest ih =>
    rw [length_cons] at few
    have puts := puts_store (state.get .sp + BitVec.ofNat 64 (8 * start)) (state.get register)
      state []
    generalize stored : state.store (state.get .sp + BitVec.ofNat 64 (8 * start))
      (state.get register) = middle at puts
    have step : execAll platform (saves (register :: rest) start) state =
        execAll platform (saves rest (start + 1)) middle := by
      rw [← stored]
      rfl
    have same : ∀ other, middle.get other = state.get other :=
      fun other => puts.confined.get_eq other not_mem_nil
    obtain ⟨confined, loads⟩ := ih (start + 1) (by omega) middle
    rw [same] at confined loads
    rw [step]
    have early : (saveArea (state.get .sp) start 1).Apart
        (saveArea (state.get .sp) (start + 1) rest.length) := by
      rw [saveArea, saveArea, ← BitVec.ofInt_natCast, ← BitVec.ofInt_natCast]
      exact Span.apart_of_distance (by omega) (by omega) (by omega)
    refine ⟨(puts.confined.within fun part member => ?_).trans
      (confined.within fun part member => ?_), fun index other found => ?_⟩
    · rw [mem_singleton.mp member]
      change (saveArea (state.get .sp) start 1).Inside _
      exact saveArea_inside _ (Nat.le_refl _) (by simp) (by simp; omega)
    · rw [mem_singleton.mp member]
      exact saveArea_inside _ (Nat.le_succ _) (by simp; omega) (by simp; omega)
    · cases index with
      | zero =>
        cases found
        rw [← puts.load_eq]
        exact confined.load_eq fun span member => mem_singleton.mp member ▸ early
      | succ index =>
        have place : start + (index + 1) = start + 1 + index := by omega
        rw [place, loads index other found, same]

/-- Registers come back from words in a row. -/
theorem restores_spec (registers : List Reg) (start : Nat) (distinct : registers.Nodup)
    (proper : ∀ register ∈ registers, register ≠ .sp ∧ register ≠ .zr) (state : State) :
    Confined registers [] state (execAll platform (restores registers start) state) ∧
    ∀ index register, registers[index]? = some register →
      (execAll platform (restores registers start) state).get register =
        state.memory.load (state.get .sp + BitVec.ofNat 64 (8 * (start + index))) := by
  induction registers generalizing start state with
  | nil => exact ⟨.refl .., by simp⟩
  | cons register rest ih =>
    obtain ⟨other_sp, named⟩ := proper register (mem_cons_self ..)
    obtain ⟨fresh, distinct⟩ := nodup_cons.mp distinct
    have brings := brings_set named
      (state.memory.load (state.get .sp + BitVec.ofNat 64 (8 * start))) state []
    generalize loaded : state.set register
      (state.memory.load (state.get .sp + BitVec.ofNat 64 (8 * start))) = middle at brings
    have step : execAll platform (restores (register :: rest) start) state =
        execAll platform (restores rest (start + 1)) middle := by
      rw [← loaded]
      rfl
    have sp : middle.get .sp = state.get .sp :=
      brings.confined.get_eq _ (by simpa using other_sp.symm)
    obtain ⟨confined, loads⟩ := ih (start + 1) distinct
      (fun other member => proper other (mem_cons_of_mem _ member)) middle
    rw [sp, brings.confined.memory_eq_of_nil] at loads
    rw [step]
    refine ⟨(brings.confined.widen (by simp)).trans
      (confined.widen (subset_cons_self ..)), fun index other found => ?_⟩
    cases index with
    | zero =>
      cases found
      rw [confined.get_eq _ fresh]
      exact brings.get_eq
    | succ index =>
      have place : start + (index + 1) = start + 1 + index := by omega
      rw [place]
      exact loads index other found

/-- The two words of the saved pair. -/
theorem pair_apart (low : Word) : (Span.word (low + 8#64)).Apart (Span.word low) := by
  intro address one two
  unfold Span.word Span.Has at one two
  dsimp only at one two
  bv_omega

theorem pair_inside (low : Word) :
    (Span.word low).Inside ⟨low, 16⟩ ∧ (Span.word (low + 8#64)).Inside ⟨low, 16⟩ := by
  constructor <;> intro address has
  all_goals
    unfold Span.word Span.Has at has
    unfold Span.Has
    dsimp only at has ⊢
    bv_omega

theorem opening_spec (entry : State)
    (below : entry.get .sp + BitVec.ofInt 64 (-Layout.recordSize) = low)
    (done : execAll platform [.stpPre .fp .lr .sp (-Layout.recordSize), .mov .fp .sp] entry = after) :
    after.get .fp = low ∧ after.get .sp = low ∧ after.memory.load low = entry.get .fp ∧
      after.memory.load (low + 8#64) = entry.get .lr ∧
      Confined [.fp, .sp] [⟨low, 16⟩] entry after := by
  have steps : execAll platform
      [.stpPre .fp .lr .sp (-Layout.recordSize), .mov .fp .sp] entry =
        (((entry.store low (entry.get .fp)).store (low + 8#64) (entry.get .lr)).set .sp low).set .fp
          ((((entry.store low (entry.get .fp)).store (low + 8#64) (entry.get .lr)).set .sp low).get
            .sp) := by
    rw [← below]
    rfl
  rw [steps] at done
  have first := puts_store low (entry.get .fp) entry []
  generalize entry.store low (entry.get .fp) = one at first done
  have second := puts_store (low + 8#64) (entry.get .lr) one []
  generalize one.store (low + 8#64) (entry.get .lr) = two at second done
  have lowered := brings_set (by decide : Reg.sp ≠ .zr) low two []
  generalize two.set .sp low = three at lowered done
  rw [lowered.get_eq] at done
  have marked := brings_set (by decide : Reg.fp ≠ .zr) low three []
  rw [done] at marked
  obtain ⟨inside, inside'⟩ := pair_inside low
  have saved : Confined [.fp, .sp] [⟨low, 16⟩] entry two := by
    refine ((first.confined.within fun part member => ?_).trans
      (second.confined.within fun part member => ?_)).widen (nil_subset _)
    · rwa [mem_singleton.mp member]
    · rwa [mem_singleton.mp member]
  refine ⟨marked.get_eq, ?_, ?_, ?_, (saved.trans (lowered.confined.mono (by decide)
    (nil_subset _))).trans (marked.confined.mono (by decide) (nil_subset _))⟩
  · rw [marked.confined.get_eq _ (by decide), lowered.get_eq]
  · rw [marked.confined.memory_eq_of_nil, lowered.confined.memory_eq_of_nil, ← first.load_eq]
    refine second.confined.load_eq fun span member => ?_
    rw [mem_singleton.mp member]
    exact (pair_apart low).symm
  · rw [marked.confined.memory_eq_of_nil, lowered.confined.memory_eq_of_nil, second.load_eq]

end

/-! ## Parts of the frame -/

namespace Placement

variable {placed : Placement} {fp : Word} {place : Ir.Location} {home : Home}

theorem size_le (placed : Placement) : placed.layout.size ≤ Layout.largestSize :=
  Nat.min_le_right ..

/-- The saved pair lies above the saved registers. -/
theorem record_apart_saves (placed : Placement) (fp : Word) :
    Span.Apart ⟨fp, Layout.recordSize⟩
      (saveArea (fp - BitVec.ofNat 64 placed.layout.size) 0 placed.layout.saved.length) := by
  have few := placed.sound.saved_sublist.length_le
  have size := Layout.size_eq placed.sound.reached few
  have bound := placed.size_le
  intro address one two
  unfold saveArea at two
  unfold Span.Has at one two
  unfold Layout.largestSize at bound
  unfold Layout.recordSize at one
  dsimp only at one two
  bv_omega

theorem record_inside_frame (small : (placed.frame fp).size ≤ 2 ^ 64) :
    Span.Inside ⟨fp, Layout.recordSize⟩ (placed.frame fp) := by
  have base : (⟨fp, Layout.recordSize⟩ : Span) =
      ⟨(placed.frame fp).base + BitVec.ofNat 64 placed.layout.size, Layout.recordSize⟩ := by
    unfold frame
    rw [BitVec.sub_add_cancel]
  rw [base]
  refine Span.inside_of_offset ?_ small
  unfold frame
  dsimp only
  omega

theorem saves_inside_frame (small : (placed.frame fp).size ≤ 2 ^ 64) :
    (saveArea (fp - BitVec.ofNat 64 placed.layout.size) 0 placed.layout.saved.length).Inside
      (placed.frame fp) := by
  have few := placed.sound.saved_sublist.length_le
  have size := Layout.size_eq placed.sound.reached few
  refine @Span.inside_of_offset (placed.frame fp) (8 * 0) (8 * placed.layout.saved.length) ?_ small
  unfold frame
  dsimp only
  omega

section

variable (found : placed.layout.homes.get? place = some home)
include found

/-- No place lives in the saved pair. -/
theorem apart_record (small : (placed.frame fp).size ≤ 2 ^ 64) :
    (home.span fp).Apart ⟨fp, Layout.recordSize⟩ := by
  rcases Nat.eq_zero_or_pos home.bytes with none | some
  · exact fun address has => absurd has (Home.not_has_of_bytes none fp address)
  have bounds := (within_of_home found).bounds some
  have outside : home.start + home.bytes ≤ 0 ∨ (Layout.recordSize : Int) ≤ home.start := by
    rcases placed.sound.inside place home found with within | ⟨_, above⟩
    · exact .inl (within.bounds some).2
    · exact .inr (above home.start ((home.covers_iff _).mpr ⟨Int.le_refl _, by omega⟩))
  unfold frame at small
  dsimp only at small
  have base : (⟨fp, Layout.recordSize⟩ : Span) = ⟨fp + BitVec.ofInt 64 0, Layout.recordSize⟩ := by
    rw [show BitVec.ofInt 64 0 = 0#64 from rfl, BitVec.add_zero]
  rw [base]
  exact Span.apart_of_distance (by omega) (by omega) (by omega)

/-- No place lives where registers are saved. -/
theorem apart_saves (small : (placed.frame fp).size ≤ 2 ^ 64) :
    (home.span fp).Apart
      (saveArea (fp - BitVec.ofNat 64 placed.layout.size) 0 placed.layout.saved.length) := by
  rcases Nat.eq_zero_or_pos home.bytes with none | some
  · exact fun address has => absurd has (Home.not_has_of_bytes none fp address)
  have bounds := (within_of_home found).bounds some
  have outside : -placed.layout.size + 8 * placed.layout.saved.length ≤ home.start := by
    by_contra below
    exact placed.sound.saves home.start bounds.1 (by omega) place home found
      ((home.covers_iff _).mpr ⟨Int.le_refl _, by omega⟩)
  have base : fp - BitVec.ofNat 64 placed.layout.size + BitVec.ofNat 64 (8 * 0) =
      fp + BitVec.ofInt 64 (-placed.layout.size) := by
    rw [BitVec.ofInt_neg, BitVec.ofInt_natCast]
    bv_omega
  unfold frame at small
  dsimp only at small
  unfold saveArea
  rw [base]
  exact Span.apart_of_distance (.inr (by omega)) (by omega) (by omega)

theorem place_of_home (found' : placed.layout.homes.get? other = some home)
    (plain : ∀ base length, home ≠ .array base length) : other = place := by
  by_contra differ
  have apart := placed.sound.apart _ _ _ _ found' found differ
  cases home with
  | reg register => exact apart.registers register rfl rfl
  | slot offset => exact apart.bytes offset ⟨Int.le_refl _, by omega⟩ ⟨Int.le_refl _, by omega⟩
  | array base length => exact plain base length rfl

theorem homeWord_eq_of_ne {machine : State} (small : (placed.frame (machine.get .fp)).size ≤ 2 ^ 64)
    (found' : placed.layout.homes.get? other = some home') (differ : home' ≠ home)
    (confined : Confined (home.reg?.toList ++ [.address]) [home.span (machine.get .fp)] machine
      after) : homeWord after home' = homeWord machine home' := by
  have apart := placed.sound.apart other place home' home found' found fun same =>
    differ (Option.some.inj (found'.symm.trans (same ▸ found)))
  have outside {register : Reg} (spared : register ∉ Reg.temporaries)
      (own : home ≠ .reg register) : register ∉ home.reg?.toList ++ [.address] := by
    rw [mem_append]
    rintro (member | member)
    · cases home <;> simp [Home.reg?] at member
      exact own (member ▸ rfl)
    · exact spared (mem_singleton.mp member ▸ by decide)
  have fp : after.get .fp = machine.get .fp := by
    refine confined.get_eq _ (outside (by decide) ?_)
    rintro rfl
    exact (not_temporary_of_home found).2.1 rfl
  cases home' with
  | reg register =>
    refine confined.get_eq _ (outside (not_temporary_of_home found').1 fun same => ?_)
    exact apart.registers register rfl same
  | slot offset =>
    rw [homeWord, homeWord, fp]
    refine confined.load_eq fun span member => ?_
    rw [mem_singleton.mp member]
    unfold frame at small
    dsimp only at small
    exact apart.spans (within_of_home found') (within_of_home found) (by omega) _
  | array base length => rw [homeWord, homeWord, fp]

theorem settle_spec {argument : Reg} (passed : argument ∈ Reg.arguments) (machine : State) :
    Confined (home.reg?.toList ++ [.address]) [home.span (machine.get .fp)] machine
      (execAll placed.platform (Layout.settle argument home) machine) ∧
    ((∀ base length, home ≠ .array base length) →
      homeWord (execAll placed.platform (Layout.settle argument home) machine) home =
        machine.get argument) := by
  have spared : ∀ register ∈ Reg.arguments, register ≠ .address := by decide
  cases home with
  | reg register =>
    have brings := brings_set (not_temporary_of_home found).2.2.2 (machine.get argument) machine []
    exact ⟨brings.confined.mono (by simp [Home.reg?]) (nil_subset _),
      fun _ => brings.get_eq⟩
  | slot offset =>
    have puts := storeSlot_puts placed.platform machine (spared argument passed) offset
    refine ⟨puts.confined, fun _ => ?_⟩
    rw [homeWord, Layout.settle, puts.confined.get_eq _ (by decide)]
    exact puts.load_eq
  | array base length => exact ⟨.refl .., fun plain => absurd rfl (plain base length)⟩

end

/-! ## Arguments that move to their homes -/

theorem mem_moves_iff :
    move ∈ placed.layout.moves ↔ placed.function.isLeaf = false ∧ ∃ position place,
      Convention.register? position = some move.1 ∧
      (placed.function.parameters[position]?).bind Ir.Operand.location? = some place ∧
      placed.layout.homes.get? place = some move.2 := by
  obtain ⟨allocation, -, same⟩ := Layout.ofFunction_ok placed.laid
  rw [same]
  dsimp only
  cases leaf : placed.function.isLeaf with
  | true => simp
  | false =>
    simp only [Bool.false_eq_true, if_false, true_and, Layout.argumentMoves, mem_filterMap]
    constructor
    · rintro ⟨⟨register, parameter⟩, listed, settled⟩
      obtain ⟨position, both⟩ := mem_iff_getElem?.mp listed
      obtain ⟨first, second⟩ := getElem?_zip_eq_some.mp both
      obtain ⟨place, location, settled⟩ := bind_eq_some_iff.mp settled
      obtain ⟨home, found, settled⟩ := bind_eq_some_iff.mp settled
      cases settled
      exact ⟨position, place, first, by rw [second]; exact location, found⟩
    · rintro ⟨position, place, first, named, found⟩
      obtain ⟨parameter, second, location⟩ := bind_eq_some_iff.mp named
      exact ⟨(move.1, parameter), mem_iff_getElem?.mpr
        ⟨position, getElem?_zip_eq_some.mpr ⟨first, second⟩⟩, by simp [location, found]⟩

/-- The pointers and the arguments stay where they are. -/
theorem not_moved (listed : register ∈ .fp :: .sp :: Reg.arguments) :
    register ∉ placed.layout.saved ++ [.address] := by
  have special : ∀ register ∈ .fp :: .sp :: Reg.arguments,
      register ∉ Reg.pool ∧ register ≠ .address := by decide
  obtain ⟨unpooled, other⟩ := special register listed
  rw [mem_append]
  rintro (saved | address)
  · exact unpooled (placed.sound.saved_sublist.subset saved)
  · exact other (mem_singleton.mp address)

theorem settles (moves : List (Reg × Home)) (listed : moves ⊆ placed.layout.moves) (machine : State)
    (small : (placed.frame (machine.get .fp)).size ≤ 2 ^ 64)
    (done : execAll placed.platform (moves.flatMap fun entry => Layout.settle entry.1 entry.2)
      machine = after) :
    Confined (placed.layout.saved ++ [.address])
      (moves.map fun entry => entry.2.span (machine.get .fp)) machine after ∧
    ∀ place home value, placed.layout.homes.get? place = some home →
      (∀ base length, home ≠ .array base length) →
      (∀ entry ∈ moves, entry.2 = home → machine.get entry.1 = value) →
      ((∃ entry ∈ moves, entry.2 = home) ∨ homeWord machine home = value) →
      homeWord after home = value := by
  induction moves generalizing machine with
  | nil =>
    subst done
    exact ⟨.refl .., fun place home value _ _ _ there =>
      there.elim (fun ⟨_, impossible, _⟩ => absurd impossible not_mem_nil) id⟩
  | cons entry moves ih =>
    obtain ⟨argument, target⟩ := entry
    obtain ⟨calls, position, spot, passed, _, lives⟩ :=
      mem_moves_iff.mp (listed (mem_cons_self ..))
    obtain ⟨confined, settled⟩ := settle_spec lives (mem_of_getElem? passed) machine
    rw [flatMap_cons, execAll_append] at done
    generalize execAll placed.platform (Layout.settle argument target) machine = middle
      at confined settled done
    have few : target.reg?.toList ++ [Reg.address] ⊆ placed.layout.saved ++ [.address] := by
      refine append_subset.mpr ⟨?_, subset_append_right _ _⟩
      intro register member
      cases target with
      | reg other =>
        rw [mem_singleton.mp member]
        exact mem_append_left _ ((placed.sound.saved_iff _).mpr
          ⟨Layout.mem_pool_of_not_leaf placed.laid calls lives, spot, lives⟩)
      | slot offset | array base length => cases member
    have fp : middle.get .fp = machine.get .fp :=
      confined.get_eq _ fun member => not_moved (by decide) (few member)
    obtain ⟨confined', settled'⟩ :=
      ih (List.Subset.trans (subset_cons_self ..) listed) middle (fp ▸ small) done
    rw [fp] at confined'
    refine ⟨(confined.mono few (by simp)).trans
      (confined'.mono (List.Subset.refl _) (by simp)), ?_⟩
    intro place home value found plain agree there
    refine settled' place home value found plain (fun entry member same => ?_) ?_
    · obtain ⟨_, _, _, passed', _⟩ := mem_moves_iff.mp (listed (mem_cons_of_mem _ member))
      rw [← agree entry (mem_cons_of_mem _ member) same]
      exact confined.get_eq _ fun inside =>
        not_moved (by simp [mem_of_getElem? passed']) (few inside)
    · by_cases same : target = home
      · right
        subst same
        rw [settled plain]
        exact agree _ (mem_cons_self ..) rfl
      · rw [homeWord_eq_of_ne lives small found (Ne.symm same) confined]
        refine there.imp_left ?_
        rintro ⟨entry, member, rfl⟩
        rcases mem_cons.mp member with rfl | later
        · exact absurd rfl same
        · exact ⟨entry, later, rfl⟩

/-! ## The frame while the function runs -/

variable (placed)

/-- Both pointers are where they belong, and all that the caller wants back is kept for it. -/
structure Framed (entry machine : State) : Prop where
  fp : machine.get .fp = entry.get .sp - BitVec.ofNat 64 Layout.recordSize
  sp : machine.get .sp = machine.get .fp - BitVec.ofNat 64 placed.layout.size
  pointer : machine.memory.load (machine.get .fp) = entry.get .fp
  link : machine.memory.load (machine.get .fp + 8#64) = entry.get .lr
  saves : ∀ index register, placed.layout.saved[index]? = some register →
    machine.memory.load (machine.get .sp + BitVec.ofNat 64 (8 * index)) = entry.get register
  others : ∀ register ∈ Reg.pool, register ∉ placed.layout.saved →
    machine.get register = entry.get register

/-- A parameter that the function finds in its home: no other parameter has its name, its home is
no array, and it is no frequent temporary, at least if it stays where it arrives. -/
structure Lodged (position : Nat) (place : Ir.Location) : Prop where
  named : (placed.function.parameters[position]?).bind Ir.Operand.location? = some place
  alone : ∀ other, (placed.function.parameters[other]?).bind Ir.Operand.location? = some place →
    other = position
  plain : ∀ base length, placed.layout.homes.get? place ≠ some (.array base length)
  steady : placed.function.isLeaf = true ∨ Convention.registerCount ≤ position →
    ∀ name ∈ Allocation.hotTemps placed.function.code, place ≠ .temp name

/-- The function has been entered: its frame is set up and its parameters are at home. -/
structure Entered (entry machine : State) : Prop extends placed.Framed entry machine where
  confined : Confined (.fp :: .sp :: .address :: placed.layout.saved)
    [placed.frame (machine.get .fp)] entry machine
  inRegister : ∀ position place home register, placed.Lodged position place →
    placed.layout.homes.get? place = some home → Convention.register? position = some register →
      homeWord machine home = entry.get register
  onStack : ∀ position place home offset, placed.Lodged position place →
    placed.layout.homes.get? place = some home → Convention.incoming? position = some offset →
      home = .slot offset ∧ homeWord machine home =
        entry.memory.load (machine.get .fp + BitVec.ofNat 64 offset)

variable {placed} {entry machine after : State}

theorem word_inside_saves (sp : Word) {index : Nat}
    (found : placed.layout.saved[index]? = some register) :
    (Span.word (sp + BitVec.ofNat 64 (8 * index))).Inside
      (saveArea sp 0 placed.layout.saved.length) := by
  have few := placed.sound.saved_sublist.length_le
  have ten : Reg.pool.length = 10 := rfl
  have within := (List.getElem?_eq_some_iff.mp found).1
  change (saveArea sp index 1).Inside _
  exact saveArea_inside sp (Nat.zero_le _) (by omega) (by omega)

theorem Framed.keep (framed : placed.Framed entry machine)
    (fp : after.get .fp = machine.get .fp) (sp : after.get .sp = machine.get .sp)
    (others : ∀ register ∈ Reg.pool, register ∉ placed.layout.saved →
      after.get register = machine.get register)
    (record : ∀ address, Span.Has ⟨machine.get .fp, Layout.recordSize⟩ address →
      after.memory address = machine.memory address)
    (saves : ∀ address, (saveArea (machine.get .sp) 0 placed.layout.saved.length).Has address →
      after.memory address = machine.memory address) : placed.Framed entry after := by
  obtain ⟨inside, inside'⟩ := pair_inside (machine.get .fp)
  refine ⟨fp.trans framed.fp, by rw [sp, fp, framed.sp], ?_, ?_, fun index register found => ?_,
    fun register pooled free => (others register pooled free).trans
      (framed.others register pooled free)⟩
  · rw [fp, ← framed.pointer]
    exact Memory.load_congr fun address has => record address (inside address has)
  · rw [fp, ← framed.link]
    exact Memory.load_congr fun address has => record address (inside' address has)
  · rw [sp, ← framed.saves index register found]
    exact Memory.load_congr fun address has => saves address (word_inside_saves _ found address has)

theorem framed_of_opening (below : entry.get .sp + BitVec.ofInt 64 (-Layout.recordSize) = low)
    (done : execAll placed.platform ([.stpPre .fp .lr .sp (-Layout.recordSize), .mov .fp .sp] ++
      reserve placed.layout.size ++ saves placed.layout.saved 0) entry = after) :
    after.get .fp = low ∧ placed.Framed entry after ∧
      Confined [.fp, .sp, .address] [⟨low, Layout.recordSize⟩,
        saveArea (low - BitVec.ofNat 64 placed.layout.size) 0 placed.layout.saved.length] entry
          after := by
  have size := placed.size_le
  have few := placed.sound.saved_sublist.length_le
  have ten : Reg.pool.length = 10 := rfl
  rw [execAll_append, execAll_append] at done
  generalize opened : execAll placed.platform
    [.stpPre .fp .lr .sp (-Layout.recordSize), .mov .fp .sp] entry = one at done
  obtain ⟨fp, sp, pointer, link, confined⟩ := opening_spec placed.platform entry below opened
  have lowers := (shift_brings placed.platform one placed.layout.size).1
  generalize execAll placed.platform (reserve placed.layout.size) one = two at done lowers
  have fp' : two.get .fp = low := (lowers.confined.get_eq _ (by decide)).trans fp
  have sp' : two.get .sp = low - BitVec.ofNat 64 placed.layout.size := by
    rw [lowers.get_eq, sp]
  obtain ⟨stored, loads⟩ := saves_spec placed.platform placed.layout.saved 0
    (by omega) two
  rw [done, sp'] at stored loads
  have whole : Confined [.fp, .sp, .address] [⟨low, Layout.recordSize⟩,
      saveArea (low - BitVec.ofNat 64 placed.layout.size) 0 placed.layout.saved.length] entry
        after :=
    ((confined.mono (by decide) (by simp [Layout.recordSize])).trans
      (lowers.confined.mono (by decide) (nil_subset _))).trans
        (stored.mono (nil_subset _) (by simp))
  have outside : ∀ register ∈ Reg.pool, register ∉ [Reg.fp, .sp, .address] := by decide
  have same : ∀ register, after.get register = two.get register :=
    fun register => stored.get_eq register not_mem_nil
  obtain ⟨inside, inside'⟩ := pair_inside low
  have kept {address : Word} (part : (Span.word address).Inside ⟨low, Layout.recordSize⟩) :
      after.memory.load address = one.memory.load address := by
    rw [← lowers.confined.memory_eq_of_nil]
    refine stored.load_eq fun span member => ?_
    rw [mem_singleton.mp member]
    exact (placed.record_apart_saves low).inside part (inside_refl _)
  refine ⟨(same _).trans fp', ⟨?_, ?_, ?_, ?_, fun index register found => ?_,
    fun register pooled _ => whole.get_eq _ ?_⟩, whole⟩
  · rw [same, fp', ← below, BitVec.ofInt_neg, BitVec.ofInt_natCast, ← BitVec.sub_eq_add_neg]
  · rw [same, same, fp', sp']
  · rw [same, fp', kept inside, pointer]
  · rw [same, fp', kept inside', link]
  · have listed := placed.sound.saved_sublist.subset (mem_of_getElem? found)
    have place := loads index register found
    rw [Nat.zero_add] at place
    rw [same, sp', place, ← same]
    exact whole.get_eq _ (outside register listed)
  · exact outside register pooled

theorem framed_of_settled (framed : placed.Framed entry machine)
    (small : (placed.frame (machine.get .fp)).size ≤ 2 ^ 64)
    (settled : Confined (placed.layout.saved ++ [.address])
      (placed.layout.moves.map fun move => move.2.span (machine.get .fp)) machine after) :
    placed.Framed entry after ∧ Confined (placed.layout.saved ++ [.address])
      [placed.frame (machine.get .fp)] machine after := by
  have spans {span : Span} (member : span ∈ placed.layout.moves.map fun move =>
      move.2.span (machine.get .fp)) : ∃ place home,
        placed.layout.homes.get? place = some home ∧ span = home.span (machine.get .fp) := by
    obtain ⟨move, listed, rfl⟩ := mem_map.mp member
    obtain ⟨_, _, place, _, _, found⟩ := mem_moves_iff.mp listed
    exact ⟨place, _, found, rfl⟩
  constructor
  · refine framed.keep (settled.get_eq _ (not_moved (by decide)))
      (settled.get_eq _ (not_moved (by decide))) (fun register pooled free => ?_)
      (fun address has => settled.memory_eq address fun span member touched => ?_)
      (fun address has => settled.memory_eq address fun span member touched => ?_)
    · refine settled.get_eq _ fun member => ?_
      rcases mem_append.mp member with saved | address
      · exact free saved
      · rw [mem_singleton.mp address] at pooled
        exact absurd pooled (by decide)
    · obtain ⟨place, home, found, rfl⟩ := spans member
      exact apart_record found small address touched has
    · obtain ⟨place, home, found, rfl⟩ := spans member
      rw [framed.sp] at has
      exact apart_saves found small address touched has
  · refine settled.within fun part member => ?_
    obtain ⟨place, home, found, rfl⟩ := spans member
    exact span_inside_frame found small

theorem Lodged.home_eq (lodged : placed.Lodged position place)
    (stays : placed.function.isLeaf = true ∨ Convention.registerCount ≤ position)
    (found : placed.layout.homes.get? place = some home) {arrived : Home}
    (arrives : Allocation.arrival? placed.function.isLeaf position = some arrived) :
    home = arrived :=
  Option.some.inj (found.symm.trans (Layout.home_of_arrival placed.laid lodged.named lodged.alone
    (lodged.steady stays) arrives))

theorem Lodged.register_of_move (lodged : placed.Lodged position place)
    (found : placed.layout.homes.get? place = some home) (listed : move ∈ placed.layout.moves)
    (same : move.2 = home) : Convention.register? position = some move.1 := by
  obtain ⟨_, other, place', passed, named, found'⟩ := mem_moves_iff.mp listed
  rw [same] at found'
  have shared : place' = place := place_of_home found found' fun base length array =>
    lodged.plain base length (array ▸ found)
  rw [← lodged.alone other (shared ▸ named)]
  exact passed

/-- The prologue enters the function. -/
theorem entered (entry : State)
    (small : (placed.frame (entry.get .sp - BitVec.ofNat 64 Layout.recordSize)).size ≤ 2 ^ 64)
    (done : execAll placed.platform placed.layout.prologue entry = machine) :
    placed.Entered entry machine := by
  have below : entry.get .sp + BitVec.ofInt 64 (-Layout.recordSize) =
      entry.get .sp - BitVec.ofNat 64 Layout.recordSize := by
    rw [BitVec.ofInt_neg, BitVec.ofInt_natCast, ← BitVec.sub_eq_add_neg]
  have parts : placed.layout.prologue = ([.stpPre .fp .lr .sp (-Layout.recordSize), .mov .fp .sp] ++
      reserve placed.layout.size ++ saves placed.layout.saved 0) ++
        placed.layout.moves.flatMap fun move => Layout.settle move.1 move.2 := rfl
  rw [parts, execAll_append] at done
  generalize opening : execAll placed.platform ([.stpPre .fp .lr .sp (-Layout.recordSize),
    .mov .fp .sp] ++ reserve placed.layout.size ++ saves placed.layout.saved 0) entry = middle at done
  obtain ⟨fp, framed, opened⟩ := framed_of_opening below opening
  rw [← fp] at small opened
  obtain ⟨settled, homes⟩ := settles _ (List.Subset.refl _) middle small done
  obtain ⟨framed', within⟩ := framed_of_settled framed small settled
  have fp' : machine.get .fp = middle.get .fp := settled.get_eq _ (not_moved (by decide))
  have arguments {register : Reg} (passed : register ∈ Reg.arguments) :
      middle.get register = entry.get register := by
    have special : ∀ register ∈ Reg.arguments, register ∉ [Reg.fp, .sp, .address] := by decide
    exact opened.get_eq _ (special register passed)
  have whole : Confined (.fp :: .sp :: .address :: placed.layout.saved)
      [placed.frame (middle.get .fp)] entry machine := by
    refine ((opened.within fun part member => ?_).widen (by simp)).trans
      (within.widen ?_)
    · rcases mem_cons.mp member with rfl | member
      · exact record_inside_frame small
      · rw [mem_singleton.mp member]
        exact saves_inside_frame small
    · intro register member
      simp only [mem_append, mem_cons] at member ⊢
      tauto
  refine ⟨framed', fp' ▸ whole, fun position place home register lodged found passed => ?_,
    fun position place home offset lodged found arrives => ?_⟩
  · have plain : ∀ base length, home ≠ .array base length :=
      fun base length array => lodged.plain base length (array ▸ found)
    have argument := mem_of_getElem? passed
    cases leaf : placed.function.isLeaf with
    | true =>
      rw [lodged.home_eq (.inl leaf) found (leaf ▸ Allocation.arrival?_of_register? passed)]
      exact (settled.get_eq _ (not_moved (by simp [argument]))).trans (arguments argument)
    | false =>
      refine homes place home _ found plain (fun move listed same => ?_)
        (.inl ⟨(register, home), mem_moves_iff.mpr ⟨leaf, position, place, passed, lodged.named,
          found⟩, rfl⟩)
      have same' := (lodged.register_of_move found listed same).symm.trans passed
      rw [Option.some.inj same']
      exact arguments argument
  · obtain ⟨late, _⟩ := Convention.incoming?_eq_some arrives
    have same : home = .slot offset :=
      lodged.home_eq (.inr late) found (by simp [Allocation.arrival?, arrives])
    subst same
    refine ⟨rfl, homes place _ _ found nofun (fun move listed same => ?_) (.inr ?_)⟩
    · have early := Convention.lt_of_register? (lodged.register_of_move found listed same)
      omega
    · rw [homeWord, fp', BitVec.ofInt_natCast]
      refine opened.load_eq fun span member => ?_
      rw [← BitVec.ofInt_natCast]
      rcases mem_cons.mp member with rfl | member
      · exact (apart_record found small).inside (word_inside_slot _ _) (inside_refl _)
      · rw [mem_singleton.mp member]
        exact (apart_saves found small).inside (word_inside_slot _ _) (inside_refl _)

/-! ## Leaving -/

variable (placed) in
/-- The epilogue in front of its return. -/
def closing : List Instr :=
  restores placed.layout.saved 0 ++ [.mov .sp .fp, .ldpPost .fp .lr .sp Layout.recordSize]

theorem epilogue_eq_closing (placed : Placement) :
    placed.layout.epilogue = placed.closing ++ [.ret] := by
  rw [closing, append_assoc]
  rfl

theorem inner_closing (placed : Placement) : Inner placed.closing :=
  inner_append.mpr ⟨inner_map (fun _ => rfl) _, by simp [Instr.isBoundary, inner_nil]⟩

/-- The caller has back all that was kept for it, and nothing else has changed. -/
structure Restores (entry machine final : State) : Prop where
  kept : ∀ register ∈ .fp :: .lr :: .sp :: Reg.pool, final.get register = entry.get register
  others : ∀ register, register ∉ .fp :: .lr :: .sp :: Reg.pool →
    final.get register = machine.get register
  memory : final.memory = machine.memory

/-- The epilogue gives back what was kept. -/
theorem Framed.restores (framed : placed.Framed entry machine)
    (done : execAll placed.platform placed.closing machine = after) :
    Restores entry machine after := by
  have pooled := placed.sound.saved_sublist
  have proper : ∀ register ∈ Reg.pool, register ≠ .sp ∧ register ≠ .zr := by decide
  have special : ∀ register ∈ Reg.pool, register ∉ [Reg.fp, .lr, .sp] := by decide
  obtain ⟨confined, loads⟩ := restores_spec placed.platform placed.layout.saved 0
    (pooled.nodup (by decide)) (fun register member => proper register (pooled.subset member)) machine
  unfold closing at done
  rw [execAll_append] at done
  generalize execAll placed.platform (Machine.restores placed.layout.saved 0) machine = loaded
    at confined loads done
  have pointer {register : Reg} (listed : register ∈ [Reg.fp, .lr, .sp]) :
      loaded.get register = machine.get register :=
    confined.get_eq _ fun member => special _ (pooled.subset member) listed
  have memory := confined.memory_eq_of_nil
  have steps : after = (((loaded.set .sp (loaded.get .fp)).set .fp (entry.get .fp)).set .lr
      (entry.get .lr)).set .sp (machine.get .fp + BitVec.ofInt 64 Layout.recordSize) := by
    have sp : (loaded.set .sp (loaded.get .fp)).get .sp = machine.get .fp := by
      rw [State.get_set_self _ _ _ (by decide), pointer (by simp)]
    rw [← done, execAll_cons, execAll_cons, execAll_nil, Instr.exec, Instr.exec, sp,
      State.memory_set, memory, framed.pointer]
    exact congrArg (fun value => (((loaded.set .sp (loaded.get .fp)).set .fp (entry.get .fp)).set .lr
      value).set .sp _) framed.link
  have outside {register : Reg} (other : register ∉ [Reg.fp, .lr, .sp]) :
      after.get register = loaded.get register := by
    simp only [mem_cons, not_mem_nil, or_false, not_or] at other
    rw [steps, State.get_set_ne _ _ other.2.2, State.get_set_ne _ _ other.2.1,
      State.get_set_ne _ _ other.1, State.get_set_ne _ _ other.2.2]
  have inPool {register : Reg} (member : register ∈ Reg.pool) :
      after.get register = entry.get register := by
    rw [outside (special register member)]
    by_cases saved : register ∈ placed.layout.saved
    · obtain ⟨index, found⟩ := mem_iff_getElem?.mp saved
      rw [loads index register found, Nat.zero_add]
      exact framed.saves index register found
    · rw [confined.get_eq _ saved]
      exact framed.others register member saved
  refine ⟨fun register member => ?_, fun register other => ?_, ?_⟩
  · simp only [mem_cons] at member
    rcases member with rfl | rfl | rfl | member
    · rw [steps, State.get_set_ne _ _ (by decide), State.get_set_ne _ _ (by decide),
        State.get_set_self _ _ _ (by decide)]
    · rw [steps, State.get_set_ne _ _ (by decide), State.get_set_self _ _ _ (by decide)]
    · rw [steps, State.get_set_self _ _ _ (by decide), framed.fp, BitVec.ofInt_natCast,
        BitVec.sub_add_cancel]
    · exact inPool member
  · simp only [mem_cons, not_or] at other
    rw [outside (by simp [other.1, other.2.1, other.2.2.1])]
    exact confined.get_eq _ fun member => other.2.2.2 (pooled.subset member)
  · rw [steps, State.memory_set, State.memory_set, State.memory_set, State.memory_set, memory]

end Placement

end ArmBackend.Machine
