import ArmBackend.Ir.Pass.Propagation
import ArmBackend.Proofs.Passes.Folding

/-!
# Propagation keeps the run

What the walk down the code knows is true: a place that is known to hold a literal holds
its bits, and was last written with a type of its kind.  So a literal that is put for an
operand has the value of the operand.
-/

namespace ArmBackend.Ir

open List Option

namespace Known

variable (known : Known)

theorem lookup_filter (keep : Location → Bool) (place : Location) :
    (known.filter fun entry => keep entry.1).lookup place =
      if keep place then known.lookup place else none := by
  induction known with
  | nil => simp
  | cons entry rest ih =>
    obtain ⟨other, value⟩ := entry
    by_cases same : place = other
    · subst same
      cases kept : keep place with
      | true => simp [kept]
      | false => simpa [kept] using ih
    · have differ := beq_false_of_ne same
      cases kept : keep other with
      | true | false => simp [lookup_cons, kept, differ, ih]

theorem get?_forget (place other : Location) :
    (known.forget place).get? other = if other = place then none else known.get? other := by
  have forgets := lookup_filter known (fun other => other != place) other
  rw [get?, forget, forgets]
  by_cases same : other = place <;> simp [same, get?]

theorem get?_learn (place other : Location) (value : Immediate) :
    (known.learn place value).get? other =
      if other = place then some value else known.get? other := by
  have forgets := known.get?_forget place other
  unfold get? at forgets
  rw [get?, learn, lookup_cons, forgets]
  by_cases same : other = place
  · simp [same]
  · simp [same, beq_false_of_ne same, get?]

theorem get?_forgetGlobals (place : Location) :
    known.forgetGlobals.get? place = if place.isGlobal then none else known.get? place := by
  have forgets := lookup_filter known (fun place => !place.isGlobal) place
  rw [get?, forgetGlobals, forgets]
  cases place.isGlobal <;> rfl

/-- What is known after a place was given a value. -/
theorem get?_record (place : Option Location) (value : Option Immediate) (other : Location) :
    (known.record place value).get? other =
      if place = some other then value else known.get? other := by
  cases place with
  | none => simp [record]
  | some place =>
    cases value with
    | none => simp only [record, get?_forget, Option.some.injEq, eq_comm]
    | some value => simp only [record, get?_learn, Option.some.injEq, eq_comm]

/-- Places were last written with a type of the kind of the literal that they hold. -/
def Fits (known : Known) (scan : Scan) : Prop :=
  scan.strict → ∀ place value, known.get? place = some value →
    ∃ type, scan.types place = some type ∧ value.isFloat = type.isFloat

/-- Places hold what they are known to hold. -/
def Holds (known : Known) (state : State) : Prop :=
  ∀ place value, known.get? place = some value → state.get place = value.bits

theorem fits_nil (scan : Scan) : Known.Fits [] scan := by
  intro _ place value known
  cases known

theorem holds_nil (state : State) : Known.Holds [] state := by
  intro place value known
  cases known

end Known

variable {value : Immediate} {instr : Instr} {place : Location} {operand : Operand} {state : State}

section

variable {known : Known} {scan : Scan} {state : State} {operand : Operand}

theorem Known.Fits.valueOf? (fits : known.Fits scan) (regular : operand.Regular scan)
    (strict : scan.strict) (found : known.valueOf? operand = some value) :
    value.isFloat = operand.type.isFloat := by
  unfold Known.valueOf? at found
  split at found
  · next literal same =>
      cases found
      cases operand <;> cases same
      exact regular strict
  · obtain ⟨place, named, held⟩ := bind_eq_some_iff.mp found
    obtain ⟨type, written, kind⟩ := fits strict place value held
    rw [kind, regular.type_eq strict named written]

theorem Known.Holds.valueOf? (holds : known.Holds state)
    (found : known.valueOf? operand = some value) (kind : value.isFloat = operand.type.isFloat)
    (setting : Setting) (owns : String → Bool) : operand.value setting owns state = value.bits := by
  unfold Known.valueOf? at found
  split at found
  · next literal same =>
      cases found
      cases operand <;> cases same
      exact Immediate.word_of_isFloat kind
  · obtain ⟨place, named, held⟩ := bind_eq_some_iff.mp found
    rw [Operand.value_of_location? named, holds place value held]

theorem Known.valueOf?_of_heldBy? (found : known.heldBy? operand = some value) :
    known.valueOf? operand = some value := by
  unfold Known.valueOf?
  cases operand <;> first | exact found | cases found

theorem Known.type_substitute (known : Known) (operand : Operand) :
    (known.substitute operand).type = operand.type := by
  unfold Known.substitute
  split <;> rfl

theorem Known.Fits.substitute (fits : known.Fits scan) (regular : operand.Regular scan) :
    (known.substitute operand).Regular scan := by
  unfold Known.substitute
  split
  · next value found =>
      exact fun strict => fits.valueOf? regular strict (Known.valueOf?_of_heldBy? found)
  · exact regular

theorem Known.Holds.substitute (holds : known.Holds state)
    (kind : ∀ value, known.valueOf? operand = some value → value.isFloat = operand.type.isFloat)
    (setting : Setting) (owns : String → Bool) :
    Instr.reading setting owns state (known.substitute operand) =
      Instr.reading setting owns state operand := by
  unfold Known.substitute
  split
  · next value found =>
      have kind := kind value (Known.valueOf?_of_heldBy? found)
      have same := holds.valueOf? (Known.valueOf?_of_heldBy? found) kind setting owns
      rw [Instr.reading, Instr.reading, same]
      exact congrArg _ (Immediate.word_of_isFloat kind)
  · rfl

/-- What is known of the sources is of the kinds of their types, and the types suit the operation. -/
structure Known.Suits (known : Known) (instr : Instr) : Prop where
  kinds : ∀ operand ∈ instr.sources, ∀ value, known.valueOf? operand = some value →
    value.isFloat = operand.type.isFloat
  typed : instr.opcode.suits (Instr.typeOf instr.dest) (Instr.typeOf instr.src1)
    (Instr.typeOf instr.src2) = true

theorem Known.Fits.suits (fits : known.Fits scan) (regular : instr.Regular scan)
    (strict : scan.strict) :
    known.Suits instr where
  kinds operand source _ := fits.valueOf?
    (regular.inputs operand (mem_append_left _ source)) strict
  typed := (regular.kinded strict).typed

theorem Known.Suits.isFloat_of_load (suits : known.Suits instr) (load : instr.opcode = .load)
    {source dest : Operand} (read : instr.src1 = some source) (written : instr.dest = some dest) :
    source.type.isFloat = dest.type.isFloat := by
  simpa [load, Opcode.suits, read, written, Instr.typeOf] using suits.typed

end

namespace Propagation

section

variable {known : Known} {scan : Scan} {instr : Instr}

/-- What an instruction becomes. -/
theorem revise_cases (known : Known) (instr : Instr) :
    (instr.opcode.isPure = true ∧ (revise known instr).1 = substituteSources known instr) ∨
      (instr.opcode = .load ∧ ∃ source value dest, instr.src1 = some source ∧
        known.valueOf? source = some value ∧ instr.dest = some dest ∧
        (revise known instr).1 = { Instr.loadImm dest value with
          comment := instr.comment, line := instr.line }) ∨
      (revise known instr).1 = instr := by
  unfold revise
  split
  · next isPure => exact .inl ⟨isPure, rfl⟩
  · split
    · next load =>
        unfold knownLoad?
        split
        · next loaded found =>
            split at found
            · next value dest one two =>
                cases found
                obtain ⟨source, read, held⟩ := bind_eq_some_iff.mp one
                exact .inr (.inl ⟨load, source, value, dest, read, held, two, rfl⟩)
            · cases found
        · exact .inr (.inr rfl)
    · exact .inr (.inr rfl)

theorem narrows_substitute (known : Known) (operand : Operand) :
    operand.Narrows (known.substitute operand) := by
  unfold Known.substitute
  split
  · exact ⟨nil_subset _, fun _ => rfl⟩
  · exact .refl operand

theorem recomputes_revise (known : Known) (instr : Instr) :
    instr.Recomputes (revise known instr).1 := by
  rcases revise_cases known instr with ⟨isPure, same⟩ | ⟨load, _, _, _, _, _, dest, same⟩ | same
  · rw [same]
    cases divides : instr.dividesByZero with
    | true =>
      obtain ⟨one, two⟩ := Instr.map_of_dividesByZero divides fun value type =>
        (rfl : known.substitute (.immediate value type) = _)
      rw [substituteSources, one, two]
      exact .same
    | false =>
      have computes := Opcode.computes_of_isPure isPure
      refine .other computes computes rfl (fun load => ?_) ?_ divides
      · rw [show instr.opcode = .load from load] at isPure
        cases isPure
      · exact .of_map (narrows_substitute known) rfl rfl (.inl rfl) rfl rfl
  · rw [same]
    exact .other (by rw [load]; rfl) rfl dest.symm nofun (.loadImm dest ..)
      (Instr.not_dividesByZero (by rw [load]; rfl))
  · rw [same]
    exact .same

theorem mem_sources_substituteSources (member : operand ∈ (substituteSources known instr).sources) :
    ∃ source ∈ instr.sources, operand = known.substitute source := by
  rw [Instr.sources, mem_append, mem_toList, mem_toList] at member
  rcases member with member | member
  · obtain ⟨source, read, rfl⟩ := map_eq_some_iff.mp member
    exact ⟨source, Instr.mem_sources_of_src1 read, rfl⟩
  · obtain ⟨source, read, rfl⟩ := map_eq_some_iff.mp member
    exact ⟨source, Instr.mem_sources_of_src2 read, rfl⟩

theorem mem_inputs_substituteSources (isPure : instr.opcode.isPure = true)
    (member : operand ∈ (substituteSources known instr).inputs) :
    ∃ source ∈ instr.inputs, operand = known.substitute source := by
  have other : (substituteSources known instr).opcode ≠ .arrayStore :=
    Opcode.ne_of_computes (Opcode.computes_of_isPure isPure) rfl
  rw [Instr.inputs, if_neg other, append_nil] at member
  obtain ⟨source, inside, same⟩ := mem_sources_substituteSources member
  exact ⟨source, mem_append_left _ inside, same⟩

theorem typeOf_substitute (known : Known) (source : Option Operand) :
    Instr.typeOf (source.map known.substitute) = Instr.typeOf source := by
  cases source with
  | none => rfl
  | some operand => exact known.type_substitute operand

theorem isTyped_substituteSources (known : Known) (instr : Instr) :
    (substituteSources known instr).isTyped = instr.isTyped := by
  rw [Instr.isTyped, Instr.isTyped, substituteSources]
  dsimp only
  rw [typeOf_substitute, typeOf_substitute]

theorem type_of_load (load : instr.opcode = .load) (typed : instr.isTyped = true)
    {source dest : Operand} (read : instr.src1 = some source) (written : instr.dest = some dest) :
    source.type = dest.type := by
  simpa [Instr.isTyped, load, Opcode.accepts, read, written, Instr.typeOf] using typed

theorem regular_revise (fits : known.Fits scan) (regular : instr.Regular scan) :
    (revise known instr).1.Regular scan := by
  refine ⟨(recomputes_revise known instr).formed regular.formed, ?_, ?_⟩
  · intro operand member
    rcases revise_cases known instr with
      ⟨isPure, same⟩ | ⟨load, source, value, dest, read, held, written, same⟩ | same
    · rw [same] at member
      obtain ⟨source, inside, rfl⟩ := mem_inputs_substituteSources isPure member
      exact fits.substitute (regular.inputs source inside)
    · have literal : operand = .immediate value dest.type := by
        rw [same] at member
        simpa [Instr.inputs, Instr.sources, Instr.loadImm] using member
      rw [literal]
      intro strict
      rw [← type_of_load load (regular.typed strict) read written]
      exact fits.valueOf? (regular.inputs source (Instr.mem_inputs_of_src1 read)) strict held
    · rw [same] at member
      exact regular.inputs operand member
  · intro strict
    rcases revise_cases known instr with ⟨_, same⟩ | ⟨_, _, _, _, _, _, _, same⟩ | same
    · rw [same, isTyped_substituteSources]
      exact regular.typed strict
    · rw [same]
      simp [Instr.isTyped, Opcode.accepts, Instr.loadImm, Instr.typeOf, Operand.type]
    · rw [same]
      exact regular.typed strict

theorem readings_substitute (suits : known.Suits instr) (holds : known.Holds state)
    {source : Option Operand} (all : ∀ operand ∈ source, operand ∈ instr.sources)
    (setting : Setting) (owns : String → Bool) :
    (source.map known.substitute).map (Instr.reading setting owns state) =
      source.map (Instr.reading setting owns state) := by
  cases source with
  | none => rfl
  | some operand =>
    exact congrArg some (holds.substitute (suits.kinds operand (all operand rfl)) setting owns)

/-- What an instruction becomes has the same plan. -/
theorem plan_revise (suits : known.Suits instr) (holds : known.Holds state) (setting : Setting)
    (owns : String → Bool) :
    (revise known instr).1.plan setting owns state = instr.plan setting owns state := by
  rcases revise_cases known instr with
    ⟨isPure, same⟩ | ⟨load, source, value, dest, read, held, written, same⟩ | same
  · rw [same]
    refine Instr.plan_congr rfl rfl
      (readings_substitute suits holds (fun _ => Instr.mem_sources_of_src1) setting owns)
      (readings_substitute suits holds (fun _ => Instr.mem_sources_of_src2) setting owns)
      ?_ (fun _ => rfl) (fun _ _ => rfl)
    intro arg
    rw [arg] at isPure
    cases isPure
  · have kind := suits.kinds source (Instr.mem_sources_of_src1 read) value held
    have result := holds.valueOf? held kind setting owns
    rw [suits.isFloat_of_load load read written] at kind
    have gives : instr.opcode.givesValue = true := by rw [load]; rfl
    rw [Instr.plan_of_givesValue setting owns state gives, Instr.givePlan, written, same]
    simp [Instr.plan, Instr.givePlan, Instr.loadImm, Instr.result, Instr.first, load, read,
      Opcode.isBinary, Opcode.isComparison, Opcode.onOne, Operand.value, result,
      Immediate.word_of_isFloat kind]
  · rw [same]

/-- The literal that the destination is known to hold behind an instruction. -/
def learned? (known : Known) (instr : Instr) : Option Immediate :=
  if instr.opcode = .store then instr.src1.bind known.valueOf?
  else if instr.opcode = .loadImm ∨ instr.opcode = .move then instr.immediate1?
  else none

theorem learn_eq_record (known : Known) (instr : Instr) :
    learn known instr = known.record instr.defined (learned? known instr) := by
  unfold learn learned?
  split
  · rfl
  · split <;> rfl

theorem learned?_eq_some (found : learned? known instr = some value) :
    (instr.opcode = .store ∨ instr.opcode = .loadImm ∨ instr.opcode = .move) ∧
      ∃ source, instr.src1 = some source ∧ known.valueOf? source = some value := by
  unfold learned? at found
  split at found
  · next store =>
      obtain ⟨source, read, held⟩ := bind_eq_some_iff.mp found
      exact ⟨.inl store, source, read, held⟩
  · split at found
    · next copies =>
        obtain ⟨type, read⟩ := Instr.src1_of_immediate1? found
        exact ⟨.inr copies, _, read, rfl⟩
    · cases found

theorem written?_of_learned? (found : learned? known instr = some value) :
    instr.written? = instr.dest := by
  rcases (learned?_eq_some found).1 with store | loadImm | move
  · exact Instr.written?_of_store store
  · exact Instr.written?_of_computes (by rw [loadImm]; rfl)
  · exact Instr.written?_of_computes (by rw [move]; rfl)

theorem learned?_sound (suits : known.Suits instr) (found : learned? known instr = some value) :
    value.isFloat = (Instr.typeOf instr.dest).isFloat ∧
      ∀ {state : State}, known.Holds state → ∀ setting owns,
        instr.result setting owns state = value.bits := by
  obtain ⟨copies, source, read, held⟩ := learned?_eq_some found
  have kind := suits.kinds source (Instr.mem_sources_of_src1 read) value held
  have typed := suits.typed
  constructor
  · rw [kind]
    rcases copies with opcode | opcode | opcode <;>
      simp_all [Opcode.suits, Opcode.accepts, Instr.typeOf]
  · intro state holds setting owns
    have value := holds.valueOf? held kind setting owns
    rcases copies with opcode | opcode | opcode <;>
      simp [Instr.result, opcode, Opcode.isBinary, Opcode.isComparison, Opcode.onOne, Instr.first,
        read, value]

/-- What is written as a whole is the destination. -/
theorem defined_of_written? (written : instr.written?.bind Operand.location? = some place) :
    instr.defined = some place := by
  unfold Instr.written? at written
  split at written
  · exact written
  · cases written

theorem fits_learn (fits : known.Fits scan) (regular : instr.Regular scan) :
    (learn known instr).Fits (scan.after instr) := by
  intro strict place value found
  rw [Scan.strict_after] at strict
  rw [learn_eq_record, Known.get?_record] at found
  rw [Scan.types_after]
  split at found
  · next defined =>
      rw [written?_of_learned? found]
      rw [Instr.defined] at defined
      rw [if_pos defined]
      exact ⟨_, rfl, (learned?_sound (fits.suits regular strict) found).1⟩
  · next other =>
      rw [if_neg fun written => other (defined_of_written? written)]
      exact fits strict place value found

/-- What is learned is given to the destination. -/
theorem holds_learn (suits : known.Suits instr) (holds : known.Holds state) {next : State}
    {setting : Setting} {owns : String → Bool} {events : List Event}
    (effect : instr.effect setting owns state = .next next events) :
    (learn known instr).Holds next := by
  have accords := instr.accords_effect setting owns state
  rw [effect] at accords
  intro place value found
  rw [learn_eq_record, Known.get?_record] at found
  split at found
  · next defined =>
      have result := (learned?_sound suits found).2 holds setting owns
      have gives : instr.opcode.givesValue = true := by
        rcases (learned?_eq_some found).1 with opcode | opcode | opcode <;> rw [opcode] <;> rfl
      obtain ⟨dest, written, named⟩ := bind_eq_some_iff.mp defined
      rw [Instr.effect_of_givesValue gives, Instr.give, written, result] at effect
      cases effect
      rw [Operand.get_assign, if_pos named]
  · next other =>
      rw [accords place other]
      exact holds place value found

/-- Nothing new is known in front of an instruction. -/
theorem get?_of_enter (found : (enter known instr).get? place = some value) :
    known.get? place = some value := by
  unfold enter at found
  split at found
  · cases found
  · split at found
    · rw [Known.get?_forgetGlobals] at found
      split at found
      · cases found
      · exact found
    · exact found

theorem fits_enter (fits : known.Fits scan) (instr : Instr) : (enter known instr).Fits scan :=
  fun strict place value found => fits strict place value (get?_of_enter found)

theorem holds_enter (holds : known.Holds state) (instr : Instr) : (enter known instr).Holds state :=
  fun place value found => holds place value (get?_of_enter found)

/-- What an instruction becomes in the walk. -/
def put (known : Known) (instr : Instr) : Instr :=
  (revise (enter known instr) instr).1

/-- What the walk knows behind an instruction. -/
def behind (known : Known) (instr : Instr) : Known :=
  learn (enter known instr) (put known instr)

theorem put_of_opcode {opcode : Opcode} (same : instr.opcode = opcode)
    (idle : opcode.computes = false) : put known instr = instr := by
  unfold put
  rcases revise_cases (enter known instr) instr with
    ⟨isPure, _⟩ | ⟨load, _⟩ | same
  · have computes := Opcode.computes_of_isPure isPure
    rw [same, idle] at computes
    cases computes
  · rw [← same, load] at idle
    cases idle
  · exact same

theorem behind_of_label (label : instr.opcode = .label) : behind known instr = [] := by
  have nothing : learned? [] instr = none := by simp [learned?, label]
  rw [behind, put_of_opcode label rfl, enter, if_pos label, learn_eq_record, nothing]
  cases instr.defined <;> rfl

theorem run_cons (known : Known) (instr : Instr) (rest : List Instr) :
    (run known (instr :: rest)).code = put known instr :: (run (behind known instr) rest).code := by
  rw [run]
  dsimp only
  split
  · next label =>
      rw [put_of_opcode label rfl, behind_of_label label]
      simp only [Revision.cons, enter, if_pos label]
  · rfl

theorem recomputes_run (known : Known) (code : List Instr) :
    Forall₂ Instr.Recomputes code (run known code).code := by
  induction code generalizing known with
  | nil => exact .nil
  | cons instr rest ih =>
    rw [run_cons]
    exact .cons (recomputes_revise _ instr) (ih _)

theorem fits_behind (fits : known.Fits scan) (regular : instr.Regular scan) :
    (behind known instr).Fits (scan.after instr) := by
  have revised := regular_revise (fits_enter fits instr) regular
  have learned := fits_learn (fits_enter fits instr) revised
  rwa [(recomputes_revise _ instr).after] at learned

/-- Code with literals put in is regular. -/
theorem regular_run (fits : known.Fits scan) {code : List Instr} (regular : Regular scan code) :
    Regular scan (run known code).code := by
  induction code generalizing known scan with
  | nil => trivial
  | cons instr rest ih =>
    rw [run_cons, Regular, put, (recomputes_revise _ instr).after]
    exact ⟨regular_revise (fits_enter fits instr) regular.1,
      ih (fits_behind fits regular.1) regular.2⟩

/-- Behind a label the walk starts anew. -/
theorem afterLabel_run (known : Known) (name : String) (code : List Instr) :
    afterLabel name (run known code).code =
      (afterLabel name code).map fun target => (run [] target).code := by
  induction code generalizing known with
  | nil => rfl
  | cons instr rest ih =>
    rw [run_cons, afterLabel, afterLabel, put, (recomputes_revise _ instr).marks, ih]
    split
    · next marks =>
        rw [behind_of_label (Instr.opcode_of_marks marks)]
        rfl
    · rfl

/-- A call may change globals and its destination. -/
theorem holds_behind_call (holds : known.Holds state) (call : instr.opcode = .call)
    {globals : Globals} {after : State} (same : ∀ place, instr.defined ≠ some place →
      after.get place = (state.back globals).get place) :
    (behind known instr).Holds after := by
  intro place value found
  have nothing : learned? known.forgetGlobals instr = none := by simp [learned?, call]
  rw [behind, put_of_opcode call rfl, enter, if_neg (by rw [call]; decide), if_pos call,
    learn_eq_record, nothing, Known.get?_record, Known.get?_forgetGlobals] at found
  split at found
  · cases found
  · next other =>
      split at found
      · cases found
      · next own =>
          rw [same place other, State.get_back state globals (Bool.eq_false_iff.mpr own)]
          exact holds place value found

end

end Propagation

/-- The same state, in front of code before and after the walk from what is known there. -/
inductive PropagatedAt : Point → Point → Prop where
  | intro {scan : Scan} {known : Known} {rest : List Instr} {state : State}
      (regular : Regular scan rest) (strict : scan.strict) (fits : known.Fits scan)
      (holds : known.Holds state) :
      PropagatedAt ⟨rest, state⟩ ⟨(Propagation.run known rest).code, state⟩

open Propagation in
/-- A function matches itself after propagation. -/
theorem matches_propagateConstants (setting : Setting) {function : Function}
    (regular : Regular (.empty True) function.code) :
    Matches setting function { function with code := (propagateConstants function.code).code }
      PropagatedAt := by
  have owns := owns_of_recomputes (recomputes_run [] function.code)
    (rfl : function.code = function.code)
    (rfl : { function with code := (propagateConstants function.code).code }.code = _)
  refine .of_drops rfl ?_ ?_
  · intro state
    exact .intro regular trivial (Known.fits_nil _) (Known.holds_nil state)
  · rintro _ _ ⟨here, strict, fits, holds⟩
    rename_i scan known rest state
    refine .inl ?_
    cases rest with
    | nil => exact ⟨rfl, rfl⟩
    | cons instr rest =>
      have enters := holds_enter holds instr
      have later : (scan.after instr).strict := scan.strict_after instr ▸ strict
      have revised := regular_revise (fits_enter fits instr) here.1
      have planEq := plan_revise ((fits_enter fits instr).suits here.1 strict) enters setting
        function.owns
      rw [run_cons]
      refine Meets.of_formed here.1.formed revised.formed ?_ rfl rfl ?_ ?_ ?_
      · rw [owns]
        exact planEq
      · intro change events planned
        have effect := Instr.effect_eq_plan setting function.owns state revised.formed.usesStack
        rw [planEq, planned] at effect
        exact .intro here.2 later (fits_behind fits here.1)
          (holds_learn ((fits_enter fits instr).suits revised strict) enters effect)
      · intro name _
        rw [propagateConstants, afterLabel_run]
        refine .map fun target found => ?_
        obtain ⟨scan, there, _, same⟩ := regular.afterLabel found
        exact .intro there (same ▸ trivial) (Known.fits_nil _) (Known.holds_nil state)
      · intro call globals value
        exact .intro here.2 later (fits_behind fits here.1)
          (holds_behind_call holds call fun place other =>
            (State.get_returned ..).trans (if_neg other))

end ArmBackend.Ir
