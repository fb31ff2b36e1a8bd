import ArmBackend.Ir.Pass.DeadCode
import ArmBackend.Ir.Pass.Labels
import ArmBackend.Proofs.Passes.Regular

/-!
# Dropping keeps the run

Code from which instructions are dropped runs like the whole, if what is dropped is a
label that is not gone to, or a result that is not read.  The two runs are then in states
that agree on the places that are read.
-/

namespace ArmBackend.Ir

open List

/-- The instruction can go, given the places that are read. -/
inductive Instr.Droppable (used : List Location) (instr : Instr) : Prop where
  | label (opcode : instr.opcode = .label)
  | array (opcode : instr.opcode = .allocArray)
  | result (opcode : instr.opcode.computes = true) (unread : ∀ place ∈ instr.defined, place ∉ used)

/-- What may be read behind one scan, of the places that are read, may be read behind another. -/
structure Scan.Serves (used : List Location) (scan other : Scan) : Prop where
  ready : ∀ name, .temp name ∈ used → scan.ready name → other.ready name
  temps : ∀ name, .temp name ∈ used → other.types (.temp name) = scan.types (.temp name)
  places : ∀ place, (∀ name, place ≠ .temp name) → other.types place = scan.types place
  fresh : ∀ name, scan.types (.temp name) = none → other.types (.temp name) = none
  strict : other.strict → scan.strict

theorem Scan.Serves.refl (used : List Location) (scan : Scan) : scan.Serves used scan :=
  ⟨fun _ _ ready => ready, fun _ _ => rfl, fun _ _ => rfl, fun _ none => none, id⟩

variable {instr : Instr} {used : List Location} {scan : Scan} {code : List Instr}

theorem Instr.mem_uses {place : Location} :
    place ∈ instr.uses ↔ ∃ operand ∈ instr.inputs, place ∈ operand.reads := by
  rw [uses, inputs]
  split
  · rw [← flatMap_append, mem_flatMap]
  · rw [append_nil, append_nil, mem_flatMap]

variable {function : Function} {operand : Operand}

section

variable {used : List Location} {scan other : Scan} {instr : Instr}

theorem Operand.Regular.serves (regular : operand.Regular scan) (serves : scan.Serves used other)
    (reads : operand.reads ⊆ used) : operand.Regular other := by
  induction operand with
  | temp name type =>
    have read : Location.temp name ∈ used := reads (mem_singleton.mpr rfl)
    exact ⟨serves.ready name read regular.1, (serves.temps name read).trans regular.2⟩
  | element array index type ih =>
    exact ih regular fun place member => reads (mem_cons_of_mem _ member)
  | immediate value type => exact fun strict => regular (serves.strict strict)
  | label name type => intro _ place named; cases named
  | var name type | param name type | global name type =>
    intro strict place named written type
    have apart : ∀ name, place ≠ .temp name := by
      cases named
      intro name
      exact Location.noConfusion
    rw [serves.places place apart] at type
    exact regular (serves.strict strict) place named written type

theorem Instr.Regular.serves (regular : instr.Regular scan) (serves : scan.Serves used other)
    (reads : instr.uses ⊆ used) : instr.Regular other := by
  have fresh {dest : Operand} (fresh : Fresh scan dest) : Fresh other dest := by
    obtain ⟨name, type, rfl, unwritten⟩ := fresh
    exact ⟨name, type, rfl, serves.fresh name unwritten⟩
  refine ⟨regular.formed.mono fresh, ?_, fun strict => regular.typed (serves.strict strict)⟩
  · intro operand member
    exact (regular.inputs operand member).serves serves fun place read =>
      reads (Instr.mem_uses.mpr ⟨operand, member, read⟩)

theorem Scan.Serves.keep (serves : scan.Serves used other) (instr : Instr) :
    (scan.after instr).Serves used (other.after instr) := by
  constructor
  · intro name read ready
    cases boundary : instr.opcode.isBoundary with
    | true =>
      rw [Scan.after, if_pos boundary] at ready
      exact ready.elim
    | false =>
      rw [Scan.ready_after boundary] at ready ⊢
      exact ready.imp id (serves.ready name read)
  · intro name read
    rw [Scan.types_after, Scan.types_after, serves.temps name read]
  · intro place apart
    rw [Scan.types_after, Scan.types_after, serves.places place apart]
  · intro name unwritten
    obtain ⟨apart, before⟩ := Scan.types_after_eq_none.mp unwritten
    exact Scan.types_after_eq_none.mpr ⟨apart, serves.fresh name before⟩
  · rw [Scan.strict_after, Scan.strict_after]
    exact serves.strict

theorem Scan.Serves.drop (serves : scan.Serves used other) (regular : instr.Regular scan)
    (droppable : instr.Droppable used) : (scan.after instr).Serves used other := by
  cases droppable with
  | label opcode =>
    rw [Scan.after, if_pos (by rw [opcode]; rfl)]
    exact ⟨fun _ _ ready => ready.elim, serves.temps, serves.places, serves.fresh, serves.strict⟩
  | array opcode =>
    have same : scan.after instr = scan := by
      rw [Scan.after, if_neg (by rw [opcode]; decide),
        Instr.written?_eq_none (by rw [opcode]; decide)]
    rw [same]
    exact serves
  | result opcode unread =>
    obtain ⟨dest, written, fresh⟩ := regular.formed.of_computes opcode
    obtain ⟨name, named, _⟩ := fresh.location?
    have whole : instr.written?.bind Operand.location? = some (.temp name) := by
      rw [Instr.written?_of_computes opcode, written]
      exact named
    have outside : Location.temp name ∉ used := by
      refine unread _ ?_
      rw [Instr.defined, written]
      exact named
    have differs {other : Location} (read : other ∈ used) :
        ¬ instr.written?.bind Operand.location? = some other := by
      rw [whole]
      rintro same
      cases same
      exact outside read
    constructor
    · intro other read ready
      rw [Scan.ready_after (Opcode.not_isBoundary_of_computes opcode)] at ready
      exact serves.ready other read (ready.resolve_left (differs read))
    · intro other read
      rw [Scan.types_after, if_neg (differs read)]
      exact serves.temps other read
    · intro place apart
      rw [Scan.types_after, if_neg]
      · exact serves.places place apart
      · rw [whole]
        rintro same
        cases same
        exact apart name rfl
    · intro other unwritten
      exact serves.fresh other (Scan.types_after_eq_none.mp unwritten).2
    · rw [Scan.strict_after]
      exact serves.strict

theorem Regular.filter {code : List Instr} {keep : Instr → Bool} (regular : Regular scan code)
    (serves : scan.Serves used other) (reads : ∀ instr ∈ code, instr.uses ⊆ used)
    (dropped : ∀ instr ∈ code, keep instr = false → instr.Droppable used) :
    Regular other (code.filter keep) := by
  induction code generalizing scan other with
  | nil => trivial
  | cons instr rest ih =>
    have here := mem_cons_self (a := instr) (l := rest)
    have reads' : ∀ instr ∈ rest, instr.uses ⊆ used := fun other member =>
      reads other (mem_cons_of_mem _ member)
    have dropped' : ∀ instr ∈ rest, keep instr = false → instr.Droppable used :=
      fun other member => dropped other (mem_cons_of_mem _ member)
    cases stays : keep instr with
    | true =>
      rw [filter_cons_of_pos stays]
      exact ⟨regular.1.serves serves (reads instr here),
        ih regular.2 (serves.keep instr) reads' dropped'⟩
    | false =>
      rw [filter_cons_of_neg (by rw [stays]; decide)]
      exact ih regular.2 (serves.drop regular.1 (dropped instr here stays)) reads' dropped'

end

/-- The states differ at most at places that are not read. -/
structure State.AgreesOn (used : List Location) (state other : State) : Prop where
  places : ∀ place ∈ used, other.get place = state.get place
  arrays : other.locals.arrays = state.locals.arrays
  pending : other.locals.pending = state.locals.pending
  globals : other.globals = state.globals

namespace State.AgreesOn

variable {used : List Location} {state other : State}

theorem refl (used : List Location) (state : State) : state.AgreesOn used state :=
  ⟨fun _ _ => rfl, rfl, rfl, rfl⟩

variable (agrees : state.AgreesOn used other)
include agrees

theorem set (place : Location) (value : Word) :
    (state.set place value).AgreesOn used (other.set place value) := by
  refine ⟨?_, ?_, ?_, ?_⟩
  · intro spot read
    rw [State.get_set, State.get_set, agrees.places spot read]
  · rw [State.arrays_set, State.arrays_set, agrees.arrays]
  · rw [State.pending_set, State.pending_set, agrees.pending]
  · cases place with
    | global name => simp only [State.set, agrees.globals]
    | _ => exact agrees.globals

theorem setTemp {name : String} (unread : Location.temp name ∉ used) (value : Word) :
    (state.set (.temp name) value).AgreesOn used other := by
  refine ⟨?_, agrees.arrays, agrees.pending, agrees.globals⟩
  intro place read
  rw [State.get_set, if_neg, agrees.places place read]
  rintro rfl
  exact unread read

/-- The same change keeps the agreement. -/
theorem apply (change : Change) : (change.apply state).AgreesOn used (change.apply other) := by
  cases change with
  | none => exact agrees
  | set place value => exact agrees.set place value
  | setElement own array index value =>
    refine ⟨?_, ?_, ?_, ?_⟩
    · intro place read
      rw [Change.apply, Change.apply, State.get_setElement, State.get_setElement,
        agrees.places place read]
    · cases own <;> simp [Change.apply, State.setElement, agrees.arrays]
    · cases own <;> exact agrees.pending
    · cases own <;> simp [Change.apply, State.setElement, agrees.globals]
  | pend argument =>
    refine ⟨?_, agrees.arrays, ?_, agrees.globals⟩
    · intro place read
      have same := agrees.places place read
      cases place <;> exact same
    · simp only [Change.apply, agrees.pending]

/-- A call keeps the agreement. -/
theorem returned (globals : Globals) (dest : Option Operand) (value : Word) :
    ((state.back globals).returned dest value).AgreesOn used
      ((other.back globals).returned dest value) := by
  have back : (state.back globals).AgreesOn used (other.back globals) := by
    refine ⟨?_, agrees.arrays, rfl, rfl⟩
    intro place read
    have same := agrees.places place read
    cases place with
    | global name => rfl
    | _ => exact same
  unfold State.returned
  split
  · exact back.set _ value
  · exact back

end State.AgreesOn

section

variable {used : List Location} {state other : State} {owns owns' : String → Bool}

theorem Operand.value_of_agreesOn (agrees : state.AgreesOn used other)
    (own : ∀ array, .var array ∈ used → owns' array = owns array) (setting : Setting)
    (reads : operand.reads ⊆ used) :
    operand.value setting owns' other = operand.value setting owns state := by
  induction operand with
  | element array index type ih =>
    have inner := ih fun place member => reads (mem_cons_of_mem _ member)
    simp only [Operand.value, inner, own array (reads (mem_cons_self ..)), State.element,
      agrees.arrays, agrees.globals]
  | label name type => rfl
  | immediate value type => rfl
  | temp name type | var name type | param name type | global name type =>
    exact agrees.places _ (reads (mem_singleton.mpr rfl))

theorem Instr.Regular.plan_of_agreesOn {scan : Scan} {instr : Instr} (regular : instr.Regular scan)
    (agrees : state.AgreesOn used other)
    (own : ∀ array, .var array ∈ used → owns' array = owns array) (reads : instr.uses ⊆ used)
    (setting : Setting) : instr.plan setting owns' other = instr.plan setting owns state := by
  have values {operand : Operand} (member : operand ∈ instr.inputs) :
      operand.value setting owns' other = operand.value setting owns state :=
    Operand.value_of_agreesOn agrees own setting fun place read =>
      reads (Instr.mem_uses.mpr ⟨operand, member, read⟩)
  have sources {source : Option Operand} (all : ∀ operand ∈ source, operand ∈ instr.inputs) :
      source.map (reading setting owns' other) = source.map (reading setting owns state) := by
    cases source with
    | none => rfl
    | some operand => simp [reading, values (all operand rfl)]
  refine plan_congr rfl rfl (sources fun _ => mem_inputs_of_src1)
    (sources fun _ => mem_inputs_of_src2) (fun _ => rfl) (fun _ => rfl) ?_
  intro gives
  refine regular.formed.givePlan_congr gives (fun _ => rfl) ?_
  intro array index type opcode written
  have member : Operand.element array index type ∈ instr.inputs := by
    simp [Instr.inputs, opcode, written]
  have inside : (Operand.element array index type).reads ⊆ used := fun place read =>
    reads (Instr.mem_uses.mpr ⟨_, member, read⟩)
  refine ⟨index, written, own array (inside (mem_cons_self ..)), ?_⟩
  rw [reading, reading, Operand.value_of_agreesOn agrees own setting fun place read =>
    inside (mem_cons_of_mem _ read)]

end

theorem Instr.Droppable.effect
    (droppable : instr.Droppable used) (regular : instr.Regular scan) {state other : State}
    (agrees : state.AgreesOn used other) (setting : Setting) (owns : String → Bool) :
    ∃ next, instr.effect setting owns state = .next next [] ∧ next.AgreesOn used other := by
  cases droppable with
  | label opcode | array opcode => exact ⟨state, by rw [Instr.effect, opcode], agrees⟩
  | result opcode unread =>
    obtain ⟨dest, written, name, type, rfl, _⟩ := regular.formed.of_computes opcode
    refine ⟨_, ?_, agrees.setTemp (unread (.temp name) ?_)
      (instr.result setting owns state)⟩
    · rw [Instr.effect_of_givesValue (Opcode.givesValue_of_computes opcode), Instr.give, written]
      rfl
    · rw [Instr.defined, written]
      rfl

/-- Dropping from code is told by what may be dropped and what must stay. -/
structure Thins (used : List Location) (keep : Instr → Bool) (code : List Instr) : Prop where
  reads : ∀ instr ∈ code, instr.uses ⊆ used
  dropped : ∀ instr ∈ code, keep instr = false → instr.Droppable used
  /-- labels that are gone to stay -/
  labels : ∀ instr ∈ code, ∀ name ∈ instr.target?, ∀ other ∈ code, other.marks name = true →
    keep other = true
  /-- arrays that are read stay -/
  arrays : ∀ instr ∈ code, ∀ array, instr.opcode = .allocArray →
    instr.defined = some (.var array) → .var array ∈ used → keep instr = true

/-- Before and behind the dropping, in states that agree on what is read. -/
inductive ThinnedAt (used : List Location) (keep : Instr → Bool) (function : Function) :
    Point → Point → Prop where
  | intro {scan : Scan} {rest : List Instr} {state other : State} (regular : Regular scan rest)
      (inside : rest <:+ function.code) (agrees : state.AgreesOn used other) :
      ThinnedAt used keep function ⟨rest, state⟩ ⟨rest.filter keep, other⟩

theorem Thins.owns {keep : Instr → Bool}
    (thins : Thins used keep function.code) {array : String} (read : .var array ∈ used) :
    { function with code := function.code.filter keep }.owns array = function.owns array := by
  rw [Function.owns, Function.owns, any_filter, Bool.eq_iff_iff, List.any_eq_true,
    List.any_eq_true]
  constructor
  · rintro ⟨instr, member, holds⟩
    exact ⟨instr, member, (Bool.and_eq_true _ _ ▸ holds).2⟩
  · rintro ⟨instr, member, holds⟩
    refine ⟨instr, member, ?_⟩
    simp only [Bool.and_eq_true, beq_iff_eq, decide_eq_true_eq] at holds ⊢
    exact ⟨thins.arrays instr member array holds.1 holds.2 read, holds⟩

/-- A function matches itself after dropping. -/
theorem Thins.matches {keep : Instr → Bool} (thins : Thins used keep function.code) {strict : Prop}
    (regular : Regular (.empty strict) function.code) (setting : Setting) :
    Matches setting function { function with code := function.code.filter keep }
      (ThinnedAt used keep function) := by
  refine .of_drops rfl ?_ ?_
  · intro state
    exact .intro regular (suffix_refl _) (.refl used state)
  rintro _ _ ⟨here, inside, agrees⟩
  rename_i scan rest state other
  cases rest with
  | nil => exact .inl ⟨rfl, agrees.globals⟩
  | cons instr rest =>
    have member : instr ∈ function.code := inside.subset (mem_cons_self ..)
    have later : rest <:+ function.code := (suffix_cons instr rest).trans inside
    cases stays : keep instr with
    | false =>
      -- Only the first function takes a step, over the instruction that is not in the second.
      obtain ⟨next, effect, still⟩ :=
        (thins.dropped instr member stays).effect here.1 agrees setting function.owns
      refine .inr ⟨⟨rest, next⟩, ?_, ?_, Nat.lt_succ_self _⟩
      · simp only [Function.move, effect]
      · rw [filter_cons_of_neg (by rw [stays]; decide)]
        exact .intro here.2 later still
    | true =>
      rw [filter_cons_of_pos stays]
      refine .inl (Meets.of_formed here.1.formed here.1.formed ?_ agrees.pending agrees.globals
        ?_ ?_ ?_)
      · exact here.1.plan_of_agreesOn agrees (fun array => thins.owns)
          (thins.reads instr member) setting
      · intro change events _
        exact .intro here.2 later (agrees.apply change)
      · intro name target
        rw [afterLabel_filter (thins.labels instr member name target)]
        refine .map fun target found => ?_
        obtain ⟨scan, there, _⟩ := regular.afterLabel found
        exact .intro there (afterLabel_suffix found) agrees
      · intro _ globals value
        exact .intro here.2 later (agrees.returned globals instr.dest value)

theorem Thins.regular {keep : Instr → Bool}
    (thins : Thins used keep code) (regular : Regular scan code) :
    Regular scan (code.filter keep) :=
  regular.filter (.refl used scan) thins.reads thins.dropped

theorem uses_subset_usedPlaces (member : instr ∈ code) :
    instr.uses ⊆ usedPlaces code :=
  fun _ read => mem_flatMap.mpr ⟨instr, member, read⟩

/-- Results that are not read can be dropped. -/
theorem thins_isNeeded (code : List Instr) :
    Thins (usedPlaces code) (Instr.isNeeded (usedPlaces code)) code where
  reads _ := uses_subset_usedPlaces
  dropped instr _ unneeded := by
    simp only [Instr.isNeeded, Bool.or_eq_false_iff, Bool.not_eq_false'] at unneeded
    obtain ⟨⟨_, removable⟩, unread⟩ := unneeded
    by_cases array : instr.opcode = .allocArray
    · exact .array array
    · refine .result ?_ ?_
      · revert removable array
        cases instr.opcode <;> decide
      · intro place defined
        rw [defined] at unread
        simpa using unread
  labels instr _ name _ other _ marks := by
    rw [Instr.isNeeded, Instr.opcode_of_marks marks]
    rfl
  arrays instr _ array _ defined read := by
    rw [Instr.isNeeded, defined]
    simp [read]

/-- Labels that are not gone to can be dropped. -/
theorem thins_isReachableMark (code : List Instr) :
    Thins (usedPlaces code) (Instr.isReachableMark (jumpTargets code)) code where
  reads _ := uses_subset_usedPlaces
  dropped instr _ unneeded := by
    simp only [Instr.isReachableMark, Bool.or_eq_false_iff, bne_eq_false_iff_eq] at unneeded
    exact .label unneeded.1
  labels instr member name target other _ marks := by
    simp only [Instr.marks, Bool.and_eq_true, beq_iff_eq] at marks
    have reached : name ∈ jumpTargets code := mem_filterMap.mpr ⟨instr, member, target⟩
    rw [Instr.isReachableMark, marks.2]
    simp [reached]
  arrays instr _ array opcode _ _ := by
    rw [Instr.isReachableMark, opcode]
    rfl

end ArmBackend.Ir
