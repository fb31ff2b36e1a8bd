import ArmBackend.Proofs.Ir.Isolation
import ArmBackend.Proofs.Passes.Sweeps

/-!
# Propagation and folding in lockstep

Code of any form, with operands of kinds that fit each other, is run beside the code that
propagation and folding make of it.  Instruction by instruction the two are in the same
state, and whatever calls do to the globals, they come to the same end.
-/

namespace ArmBackend.Ir

open List Option

/-- Places are used as floats or not as the assignment says; literals are of the kinds of their
types, and the types suit the operation. -/
structure Instr.UsedAs (floats : Location → Bool) (instr : Instr) : Prop where
  places : ∀ operand ∈ instr.operands, ∀ place ∈ operand.location?,
    operand.type.isFloat = floats place
  literals : ∀ operand ∈ instr.operands, ∀ value ∈ operand.immediate?,
    value.isFloat = operand.type.isFloat
  typed : instr.opcode.suits (Instr.typeOf instr.dest) (Instr.typeOf instr.src1)
    (Instr.typeOf instr.src2) = true

instance (floats : Location → Bool) (instr : Instr) : Decidable (instr.UsedAs floats) :=
  decidable_of_iff
    ((∀ operand ∈ instr.operands, ∀ place ∈ operand.location?,
        operand.type.isFloat = floats place) ∧
      (∀ operand ∈ instr.operands, ∀ value ∈ operand.immediate?,
        value.isFloat = operand.type.isFloat) ∧
      instr.opcode.suits (Instr.typeOf instr.dest) (Instr.typeOf instr.src1)
        (Instr.typeOf instr.src2) = true)
    ⟨fun ⟨places, literals, typed⟩ => ⟨places, literals, typed⟩,
      fun used => ⟨used.places, used.literals, used.typed⟩⟩

/-- Each place of the function is used at one kind. -/
def Function.IsConsistent (function : Function) : Prop :=
  ∃ floats : Location → Bool, ∀ instr ∈ function.code, instr.UsedAs floats

/-- Literals are of the kinds of the places that hold them. -/
def Known.FitsBy (floats : Location → Bool) (known : Known) : Prop :=
  ∀ place value, known.get? place = some value → value.isFloat = floats place

section

variable {floats : Location → Bool} {known : Known} {instr : Instr}

theorem Known.fitsBy_nil (floats : Location → Bool) : Known.FitsBy floats [] := by
  intro place value found
  cases found

theorem Known.FitsBy.suits (fits : known.FitsBy floats) (used : instr.UsedAs floats) :
    known.Suits instr where
  kinds operand source value found := by
    have member : operand ∈ instr.operands := mem_append_right _ source
    unfold Known.valueOf? at found
    split at found
    · next literal same =>
        cases found
        exact used.literals operand member value same
    · obtain ⟨place, named, held⟩ := bind_eq_some_iff.mp found
      rw [fits place value held, used.places operand member place named]
  typed := used.typed

theorem Known.Suits.kinded (suits : known.Suits instr) : instr.Kinded where
  literals _ _ source := suits.kinds _ source _ rfl
  typed := suits.typed

namespace Propagation

section

variable (fits : known.FitsBy floats)
include fits

theorem usedAs_revise (used : instr.UsedAs floats) : (revise known instr).1.UsedAs floats := by
  have suits := fits.suits used
  rcases revise_cases known instr with
    ⟨isPure, same⟩ | ⟨load, source, value, dest, read, held, written, same⟩ | same
  · rw [same]
    have origin {operand : Operand} (member : operand ∈ (substituteSources known instr).operands) :
        operand ∈ instr.operands ∨ ∃ source ∈ instr.sources, operand = known.substitute source := by
      rw [Instr.operands, mem_append] at member
      rcases member with member | member
      · exact .inl (mem_append_left _ member)
      · exact .inr (mem_sources_substituteSources member)
    refine ⟨fun operand member place named => ?_, fun operand member literal written => ?_, ?_⟩
    · rcases origin member with old | ⟨source, inside, rfl⟩
      · exact used.places operand old place named
      · unfold Known.substitute at named ⊢
        split at named
        · cases named
        · exact used.places source (mem_append_right _ inside) place named
    · rcases origin member with old | ⟨source, inside, rfl⟩
      · exact used.literals operand old literal written
      · unfold Known.substitute at written ⊢
        split at written
        · next value found =>
            cases written
            exact suits.kinds source inside literal (Known.valueOf?_of_heldBy? found)
        · exact used.literals source (mem_append_right _ inside) literal written
    · rw [substituteSources]
      dsimp only
      rw [typeOf_substitute, typeOf_substitute]
      exact used.typed
  · have kind := suits.kinds source (Instr.mem_sources_of_src1 read) value held
    rw [suits.isFloat_of_load load read written] at kind
    have both {operand : Operand} (member : operand ∈ (revise known instr).1.operands) :
        operand = dest ∨ operand = .immediate value dest.type := by
      rw [same] at member
      simpa [Instr.operands, Instr.sources, Instr.loadImm] using member
    have old : dest ∈ instr.operands := by simp [Instr.operands, written]
    refine ⟨fun operand member place named => ?_, fun operand member literal put => ?_, ?_⟩
    · rcases both member with rfl | rfl
      · exact used.places operand old place named
      · cases named
    · rcases both member with rfl | rfl
      · exact used.literals operand old literal put
      · cases put
        exact kind
    · rw [same]
      simp [Opcode.suits, Instr.loadImm, Instr.typeOf, Operand.type]
  · rw [same]
    exact used

theorem fitsBy_enter (instr : Instr) : (enter known instr).FitsBy floats :=
  fun place value found => fits place value (get?_of_enter found)

variable (used : instr.UsedAs floats)
include used

theorem usedAs_put : (put known instr).UsedAs floats :=
  usedAs_revise (fitsBy_enter fits instr) used

theorem fitsBy_behind : (behind known instr).FitsBy floats := by
  have enters := fitsBy_enter fits instr
  have revised := usedAs_put fits used
  intro place value found
  rw [behind, learn_eq_record, Known.get?_record] at found
  split at found
  · next defined =>
      obtain ⟨dest, written, named⟩ := bind_eq_some_iff.mp defined
      rw [(learned?_sound (enters.suits revised) found).1, written,
        ← revised.places dest (by simp [Instr.operands, written]) place named]
      rfl
  · exact enters place value found

end

end Propagation

end

/-! ## Instructions side by side -/

namespace Instr

variable {instr other : Instr} {setting : Setting} {owns : String → Bool} {state : State}

theorem Recomputes.effect_eq (recomputes : instr.Recomputes other)
    (plan : other.plan setting owns state = instr.plan setting owns state) :
    other.effect setting owns state = instr.effect setting owns state := by
  have plain {opcode : Opcode} (computes : opcode.computes = true) : opcode.usesStack = false := by
    cases opcode <;> first | rfl | cases computes
  cases recomputes with
  | same => rfl
  | other old new _ =>
    rw [effect_eq_plan setting owns state (plain new),
      effect_eq_plan setting owns state (plain old), plan]

/-- What is seen of an instruction: prints and stores, a call with its arguments, a result. -/
def seen (setting : Setting) (owns : String → Bool) (state : State) (instr : Instr) :
    List Event :=
  match instr.effect setting owns state with
  | .next _ events => events
  | .call (some callee) _ => [.call callee state.locals.pending]
  | .leave value => [.ret value]
  | _ => []

/-- The division of integers by zero that the instruction makes, with what it divides. -/
def zeroDivision? (setting : Setting) (owns : String → Bool) (state : State) (instr : Instr) :
    Option (Opcode × Word) :=
  if instr.opcode.divides && !instr.onFloats && instr.second setting owns state == 0 then
    some (instr.opcode, instr.first setting owns state)
  else none

theorem zeroDivision?_of_not_divides (other : instr.opcode.divides = false) :
    instr.zeroDivision? setting owns state = none := by
  rw [zeroDivision?, other]
  rfl

/-- A division of integers by zero is not folded. -/
theorem Kinded.zeroDivision?_of_folded? (kinded : instr.Kinded) {value : Immediate}
    (folds : instr.folded? = some value) : instr.zeroDivision? setting owns state = none := by
  refine if_neg fun zero => ?_
  simp only [Bool.and_eq_true, Bool.not_eq_true', beq_iff_eq] at zero
  obtain ⟨⟨divides, ints⟩, zero⟩ := zero
  have binary : instr.opcode.isBinary = true := by
    revert divides
    cases instr.opcode <;> decide
  rw [folded?, if_pos binary] at folds
  split at folds
  · next left right one two =>
      obtain ⟨type, source⟩ := src2_of_immediate2? two
      have kind : right.isFloat = type.isFloat := kinded.literals _ _ (by simp [sources, source])
      rw [onFloats, List.any_eq_false] at ints
      have int : type.isFloat = false := by
        simpa [Operand.type] using ints (.immediate right type) (by simp [sources, source])
      have none : instr.dividesByZero = true := by
        rw [second, source] at zero
        rw [dividesByZero, divides, one, two]
        rw [int] at kind
        cases right with
        | int word =>
          simpa [Operand.value, Immediate.word, int, Immediate.isZero, Immediate.toWord] using zero
        | float value => cases kind
      rw [if_pos none] at folds
      cases folds
  · cases folds

theorem Kinded.zeroDivision?_folding (kinded : instr.Kinded) :
    instr.folding.zeroDivision? setting owns state = instr.zeroDivision? setting owns state := by
  unfold folding
  cases folds : instr.fold? with
  | none => rfl
  | some loaded =>
    obtain ⟨value, dest, literal, written, rfl⟩ := fold?_eq_some folds
    rw [kinded.zeroDivision?_of_folded? literal]
    exact zeroDivision?_of_not_divides rfl

end Instr

namespace Propagation

variable {floats : Location → Bool} {known : Known} {instr : Instr} {state : State}

theorem zeroDivision?_revise (suits : known.Suits instr) (holds : known.Holds state)
    (setting : Setting) (owns : String → Bool) :
    (revise known instr).1.zeroDivision? setting owns state =
      instr.zeroDivision? setting owns state := by
  rcases revise_cases known instr with
    ⟨isPure, same⟩ | ⟨load, source, value, dest, read, held, written, same⟩ | same
  · have one := readings_substitute suits holds (fun _ => Instr.mem_sources_of_src1) setting owns
    have two := readings_substitute suits holds (fun _ => Instr.mem_sources_of_src2) setting owns
    rw [same, Instr.zeroDivision?, Instr.zeroDivision?, Instr.onFloats_eq, Instr.onFloats_eq,
      Instr.first, Instr.first, Instr.second, Instr.second, substituteSources]
    dsimp only
    rw [Instr.map_value_of_reading one, Instr.map_value_of_reading two, typeOf_substitute,
      typeOf_substitute]
  · have idle : instr.opcode.divides = false := by rw [load]; rfl
    rw [same, Instr.zeroDivision?_of_not_divides idle]
    exact Instr.zeroDivision?_of_not_divides rfl
  · rw [same]

/-- An instruction does the same after both passes. -/
theorem effect_folding_put (fits : known.FitsBy floats) (used : instr.UsedAs floats)
    (holds : known.Holds state) {setting : Setting} (binary : setting.floats = .binary64)
    (owns : String → Bool) :
    (put known instr).effect setting owns state = instr.effect setting owns state ∧
      (put known instr).folding.effect setting owns state = instr.effect setting owns state ∧
      (put known instr).folding.zeroDivision? setting owns state =
        instr.zeroDivision? setting owns state := by
  have enters := fitsBy_enter fits instr
  have holds := holds_enter holds instr
  have kinded := (enters.suits (usedAs_put fits used)).kinded
  have revised := (recomputes_revise (enter known instr) instr).effect_eq
    (plan_revise (enters.suits used) holds setting owns)
  have folded := (put known instr).recomputes_folding.effect_eq
    (kinded.plan_folding binary owns state)
  exact ⟨revised, folded.trans revised, kinded.zeroDivision?_folding.trans
    (zeroDivision?_revise (enters.suits used) holds setting owns)⟩

end Propagation

/-! ## Functions side by side -/

/-- What is seen of a function that runs by itself, whatever its calls do. -/
def Environs.seeing (setting : Setting) (reply : List Event → Globals → Globals × Word) :
    Environs Event where
  toSetting := setting
  note := Instr.seen setting
  reply := reply

/-- Both stand in front of the same instruction, or have come to the same end.  They are in the
same state, the same has been seen of them, and they make the same division by zero. -/
inductive InStep (setting : Setting) (function other : Function) : Standing Event → Standing Event → Prop
  | running (position : Nat) (state : State) (seen : List Event)
      (zero : (other.code.drop position).head?.bind
          (Instr.zeroDivision? setting other.owns state) =
        (function.code.drop position).head?.bind
          (Instr.zeroDivision? setting function.owns state)) :
      InStep setting function other (.running (function.code.drop position) state seen)
        (.running (other.code.drop position) state seen)
  | left (value : Option Word) (globals : Globals) (seen : List Event) :
      InStep setting function other (.left value globals seen) (.left value globals seen)
  | stuck (seen : List Event) : InStep setting function other (.stuck seen) (.stuck seen)

/-- Where a function and its code after both passes stand, by what the walk knew there. -/
inductive WalkedAt (floats : Location → Bool) (function other : Function) :
    Standing Event → Standing Event → Prop
  | running {known : Known} {rest : List Instr} {state : State} (seen : List Event)
      (inside : rest <:+ function.code)
      (others : (Propagation.run known rest).code.map Instr.folding <:+ other.code)
      (fits : known.FitsBy floats) (holds : known.Holds state) :
      WalkedAt floats function other (.running rest state seen)
        (.running ((Propagation.run known rest).code.map Instr.folding) state seen)
  | left (value : Option Word) (globals : Globals) (seen : List Event) :
      WalkedAt floats function other (.left value globals seen) (.left value globals seen)
  | stuck (seen : List Event) : WalkedAt floats function other (.stuck seen) (.stuck seen)

section

variable {setting : Setting} {floats : Location → Bool} {function : Function}

theorem code_after_folding (function : Function) :
    (function.after [.propagation, .folding]).code =
      (Propagation.run [] function.code).code.map Instr.folding :=
  foldConstants_code _

theorem owns_after_folding (function : Function) :
    (function.after [.propagation, .folding]).owns = function.owns := by
  have one := owns_of_recomputes (Propagation.recomputes_run [] function.code)
    (rfl : function.code = _) (rfl : (function.after [.propagation]).code = _)
  have two := owns_of_recomputes (recomputes_foldConstants (function.after [.propagation]).code)
    rfl (rfl : (function.after [.propagation, .folding]).code = _)
  exact two.trans one

theorem target?_after_folding (function : Function) (label : Option String) :
    (function.after [.propagation, .folding]).target? label =
      (function.target? label).map fun target =>
        (Propagation.run [] target).code.map Instr.folding := by
  cases label with
  | none => rfl
  | some name =>
    rw [Function.target?, Function.target?, bind_some, bind_some,
      code_after_folding, afterLabel_map (fun instr => instr.recomputes_folding.marks),
      Propagation.afterLabel_run, Option.map_map]
    rfl

theorem State.get_answered {owns : String → Bool} {state : State} {dest : Option Operand}
    {answer : Globals × Word} {place : Location} (other : dest.bind Operand.location? ≠ some place) :
    (state.answered setting owns dest answer).get place = (state.back answer.1).get place := by
  cases dest with
  | none => rfl
  | some dest => exact (Operand.get_assign ..).trans (if_neg other)

variable {stage stage' : Standing Event}

theorem WalkedAt.step (used : ∀ instr ∈ function.code, instr.UsedAs floats)
    (binary : setting.floats = .binary64) (reply : List Event → Globals → Globals × Word)
    (walked : WalkedAt floats function (function.after [.propagation, .folding]) stage stage') :
    WalkedAt floats function (function.after [.propagation, .folding])
      (function.stepAlone (.seeing setting reply) stage)
      ((function.after [.propagation, .folding]).stepAlone (.seeing setting reply) stage') := by
  cases walked with
  | left value globals seen => exact .left value globals seen
  | stuck seen => exact .stuck seen
  | @running known rest state seen inside others fits holds =>
    cases rest with
    | nil => exact .left none state.globals seen
    | cons instr rest =>
      have used := used instr (inside.mem (mem_cons_self ..))
      have inside := (suffix_cons instr rest).trans inside
      obtain ⟨revised, same, -⟩ := Propagation.effect_folding_put fits used holds binary
        function.owns
      have seenSame : Instr.seen setting function.owns state
          (Propagation.put known instr).folding = instr.seen setting function.owns state := by
        rw [Instr.seen, Instr.seen, same]
      rw [Propagation.run_cons, map_cons] at others ⊢
      have others := (suffix_cons _ _).trans others
      have later := Propagation.fitsBy_behind fits used
      simp only [Function.stepAlone, Environs.seeing, owns_after_folding, same, seenSame]
      cases effect : instr.effect setting function.owns state with
      | next next events =>
        have suits := (Propagation.fitsBy_enter fits instr).suits (Propagation.usedAs_put fits used)
        exact .running _ inside others later (Propagation.holds_learn suits
          (Propagation.holds_enter holds instr) (revised.trans effect))
      | leave value => exact .left value state.globals _
      | jump label =>
        simp only [Function.perform, target?_after_folding]
        cases found : function.target? label with
        | none => exact .stuck _
        | some target =>
          have moved := target?_after_folding function label
          rw [found] at moved
          obtain ⟨name, -, landed⟩ := bind_eq_some_iff.mp found
          obtain ⟨name', -, landed'⟩ := bind_eq_some_iff.mp moved
          exact .running _ (afterLabel_suffix landed) (afterLabel_suffix landed')
            (Known.fitsBy_nil floats) (Known.holds_nil state)
      | call callee dest =>
        cases callee with
        | none => exact .stuck _
        | some callee =>
          simp only [Function.perform, owns_after_folding]
          have accords := instr.accords_effect setting function.owns state
          rw [effect] at accords
          obtain ⟨call, rfl⟩ := accords
          exact .running _ inside others later
            (Propagation.holds_behind_call holds call fun place => State.get_answered)

/-- Such a pair of stages is in step. -/
theorem WalkedAt.inStep (used : ∀ instr ∈ function.code, instr.UsedAs floats)
    (binary : setting.floats = .binary64)
    (walked : WalkedAt floats function (function.after [.propagation, .folding]) stage stage') :
    InStep setting function (function.after [.propagation, .folding]) stage stage' := by
  cases walked with
  | left value globals seen => exact .left value globals seen
  | stuck seen => exact .stuck seen
  | @running known rest state seen inside others fits holds =>
    have length (known : Known) (code : List Instr) :
        ((Propagation.run known code).code.map Instr.folding).length = code.length := by
      rw [length_map, (Propagation.recomputes_run known code).length_eq]
    have here := suffix_iff_eq_drop.mp inside
    have there := suffix_iff_eq_drop.mp others
    rw [length, code_after_folding, length, ← code_after_folding] at there
    have zero : ((Propagation.run known rest).code.map Instr.folding).head?.bind
        (Instr.zeroDivision? setting (function.after [.propagation, .folding]).owns state) =
        rest.head?.bind (Instr.zeroDivision? setting function.owns state) := by
      cases rest with
      | nil => rfl
      | cons instr rest =>
        rw [Propagation.run_cons, owns_after_folding]
        exact (Propagation.effect_folding_put fits
          (used instr (inside.mem (mem_cons_self ..))) holds binary function.owns).2.2
    generalize (Propagation.run known rest).code.map Instr.folding = rest' at there zero ⊢
    rw [here, there] at zero ⊢
    exact .running _ state seen zero

/--
Propagation and folding keep what a function does, step by step.  Its code may be of any form, with
jumps from anywhere to anywhere, as long as operands are of kinds that fit each other.
-/
theorem inStep_after_folding (consistent : function.IsConsistent)
    (binary : setting.floats = .binary64) (reply : List Event → Globals → Globals × Word)
    (state : State) (count : Nat) :
    InStep setting function (function.after [.propagation, .folding])
      (function.runAlone (.seeing setting reply) state count)
      ((function.after [.propagation, .folding]).runAlone (.seeing setting reply) state count) := by
  obtain ⟨floats, used⟩ := consistent
  refine WalkedAt.inStep used binary ?_
  induction count with
  | zero =>
    rw [Function.runAlone, Function.runAlone, Function.iterate_zero, Function.iterate_zero, id, id]
    have others : (Propagation.run [] function.code).code.map Instr.folding <:+
        (function.after [.propagation, .folding]).code :=
      (code_after_folding function).symm ▸ List.suffix_refl _
    rw [code_after_folding]
    exact .running [] (List.suffix_refl _) others (Known.fitsBy_nil floats) (Known.holds_nil state)
  | succ count ih =>
    rw [Function.runAlone, Function.runAlone, Function.iterate_succ_apply',
      Function.iterate_succ_apply']
    exact ih.step used binary reply

/-- A loop until a call has emptied a global, and then a division by zero. -/
def drain : Function where
  name := "drain"
  code :=
    [.loadImm (.var "unit" .float) (.float (.ofWord 1)),
      .mark "again",
      .store (.global "level" .int) (.immediate (.int 4) .int),
      .call "tick" (some (.temp "t0" .int)),
      .load (.temp "t1" .int) (.global "level" .int),
      { opcode := .push, src1 := some (.temp "t1" .int) },
      .jumpIf true (.temp "t1" .int) "again",
      .store (.var "rest" .int) (.immediate (.int 0) .int),
      .binary .div (.temp "t1" .int) (.immediate (.int 7) .int) (.var "rest" .int),
      .ret (some (.temp "t1" .int))]

theorem inStep_drain :
    (drain.after [.propagation, .folding]).code ≠ drain.code ∧ drain.IsConsistent ∧
      InStep ⟨.binary64, fun _ => 0⟩ drain (drain.after [.propagation, .folding])
        (drain.runAlone (.seeing ⟨.binary64, fun _ => 0⟩ fun _ globals => (globals, 1))
          ⟨⟨fun _ => 0, fun _ _ => 0, [], []⟩, .zero⟩ 9)
        ((drain.after [.propagation, .folding]).runAlone
          (.seeing ⟨.binary64, fun _ => 0⟩ fun _ globals => (globals, 1))
          ⟨⟨fun _ => 0, fun _ _ => 0, [], []⟩, .zero⟩ 9) := by
  have consistent : drain.IsConsistent := ⟨fun place => place == .var "unit", by decide⟩
  exact ⟨by decide, consistent, inStep_after_folding consistent rfl _ _ 9⟩

end

end ArmBackend.Ir
