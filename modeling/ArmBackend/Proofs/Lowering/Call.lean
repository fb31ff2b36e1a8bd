import ArmBackend.Proofs.Lowering.Loop
import Mathlib

/-!
# Code of calls

A call is covered by the code that passes the arguments, the code of the function,
and the step that comes back.  The step that enters the function pays for the call.
-/

namespace ArmBackend.Ir

open List

open Source (Value World Code Handlers Run Flow)

/-- The bindings of the parameters of a function. -/
def parameterBindings (parameters : List Parameter) : Bindings :=
  (parameters.map fun parameter =>
    (parameter.name, Storage.direct (.param parameter.name parameter.type))).reverse

/-- Arguments with their positions, from the given one on. -/
def numbered : (position : Nat) → List Value → List (Nat × Word)
  | _, [] => []
  | position, value :: rest => (position, value.bits) :: numbered (position + 1) rest

theorem lookup_numbered (values : List Value) (start offset : Nat) :
    (numbered start values).lookup (start + offset) = values[offset]?.map Value.bits := by
  induction values generalizing start offset with
  | nil => rfl
  | cons value rest ih =>
    cases offset with
    | zero => rw [numbered, Nat.add_zero, lookup_cons_self]; rfl
    | succ offset =>
      have differ : (start + (offset + 1) == start) = false := by
        rw [beq_eq_false_iff_ne]
        omega
      have shift : start + (offset + 1) = start + 1 + offset := by omega
      rw [numbered, lookup_cons, differ, shift]
      exact ih (start + 1) offset

/-- The state with other arguments waiting. -/
def State.withPending (state : State) (pending : List (Nat × Word)) : State :=
  { state with locals := { state.locals with pending } }

theorem Operand.Settled.value_withPending {bound : Nat} {operand : Operand}
    (settled : operand.Settled bound) (setting : Setting) (owns : String → Bool) (state : State)
    (pending : List (Nat × Word)) :
    operand.value setting owns (state.withPending pending) = operand.value setting owns state := by
  cases operand with
  | global name type | label name type | element array index type => exact settled.elim
  | _ => rfl

variable {config : Config} {env : Env} {function : Function} {handlers : Handlers}
  {pending : List (Nat × Word)} {trace : List Event} {rest : List Instr} {operands : List Operand}
  {parameters : List Parameter} {values : List Value} {position line fuel : Nat}
  {dest : Option Operand} {value : Option Word} {stage : Stage} {inner state : State}
  {name callee : String}

theorem Instr.position_arg (operand : Operand) (small : position < 2 ^ 63) (line : Nat) :
    ((Instr.arg operand position).atLine line).position = position := by
  change (BitVec.ofNat 64 position).toInt.toNat = position
  have same : (BitVec.ofNat 64 position).toNat = position := by
    rw [BitVec.toNat_ofNat]
    omega
  rw [BitVec.toInt_eq_toNat_of_lt (by omega), same, Int.toNat_natCast]

namespace Stage

variable {stage : Stage} {config : Config} {state : State} {rest : List Instr}
  {output : List Printed}

/-- The code that passes arguments. -/
theorem At.arguments {bound : Nat} (holds : Forall₂ (stage.Holds bound state) operands values)
    (small : position + operands.length ≤ 2 ^ 63)
    (here : stage.At config (Lowered.argCode line position operands ++ rest)
      (state.withPending pending) output) :
    ∃ count, stage.At (stage.run count config) rest
      (state.withPending (pending ++ numbered position values)) output := by
  induction holds generalizing position pending config with
  | nil =>
    refine ⟨0, ?_⟩
    rw [numbered, append_nil]
    exact here
  | @cons operand value operands values holds _ ih =>
    have same : stage.value (state.withPending pending) operand = value.bits :=
      (holds.settled.value_withPending _ _ _ _).trans holds.bits
    rw [length_cons] at small
    have does : stage.effect (state.withPending pending)
        ((Instr.arg operand position).atLine line) =
        .next (state.withPending (pending ++ [(position, value.bits)])) [] := by
      change Effect.next ((state.withPending pending).withPending (pending ++
        [(_, stage.value (state.withPending pending) operand)])) [] = _
      rw [Instr.position_arg operand (by omega) line, same]
      rfl
    obtain ⟨count, arrived⟩ := ih (by omega) (here.silent does rfl)
    refine ⟨count + 1, ?_⟩
    rw [numbered, append_cons, Nat.add_comm, stage.run_add]
    exact arrived

end Stage

/-- A binding whose name is bound once is found. -/
theorem lookup_of_mem {entries : Bindings} (distinct : (entries.map Prod.fst).Nodup)
    {storage : Storage} (member : (name, storage) ∈ entries) :
    entries.lookup name = some storage := by
  obtain ⟨before, after, rfl⟩ := append_of_mem member
  refine lookup_eq_some_iff.mpr ⟨before, after, rfl, fun entry inside => ?_⟩
  rw [map_append] at distinct
  have apart := (nodup_append.mp distinct).2.2 entry.1
    (mem_map_of_mem (f := Prod.fst) inside) name (mem_cons_self ..)
  exact bne_iff_ne.mpr fun same => apart same.symm

theorem names_parameterBindings (parameters : List Parameter) :
    (parameterBindings parameters).map Prod.fst = (parameters.map Parameter.name).reverse := by
  rw [parameterBindings, map_reverse, List.map_map]
  rfl

theorem frame_parameter (same : function.parameters = parameters.map fun parameter =>
      .param parameter.name parameter.type) (distinct : (parameters.map Parameter.name).Nodup)
    {parameter : Parameter} {value : Value} (named : parameters[position]? = some parameter)
    (given : values[position]? = some value) (trace : List Event) :
    (function.frame env trace (numbered 0 values)).places (.param parameter.name) = value.bits := by
  have first : function.position? (.param parameter.name) = some position := by
    obtain ⟨inside, rfl⟩ := List.getElem?_eq_some_iff.mp named
    rw [Function.position?, same, findIdx?_eq_some_iff_getElem]
    refine ⟨by rwa [length_map], by simp [Operand.location?], fun earlier before => ?_⟩
    have apart := pairwise_iff_getElem.mp distinct earlier position
      (by rw [length_map]; omega) (by rwa [length_map]) before
    simpa [Operand.location?] using apart
  have found := lookup_numbered values 0 position
  rw [Nat.zero_add, given] at found
  simp only [Function.frame, first, Option.bind_some, found]
  rfl

theorem names_frame (parameters : List Parameter) (values : List Value)
    (same : parameters.length = values.length) :
    (Source.frame parameters values).map Prod.fst = (parameters.map Parameter.name).reverse := by
  rw [Source.frame, map_reverse, map_zipWith]
  congr 1
  induction parameters generalizing values with
  | nil => rfl
  | cons parameter parameters ih =>
    cases values with
    | nil => cases same
    | cons value values => exact congrArg _ (ih values (Nat.succ.inj same))

theorem related_frame (same : function.parameters = parameters.map fun parameter =>
      .param parameter.name parameter.type) (distinct : (parameters.map Parameter.name).Nodup)
    (typed : parameters.map Parameter.type = values.map Value.type) (world : World)
    (trace : List Event) :
    Related function (parameterBindings parameters)
      { world with scopes := Source.frame parameters values }
      ⟨function.frame env trace (numbered 0 values), world.globals⟩ where
  globals := rfl
  pending := rfl
  distinct := by
    have lengths := congrArg List.length typed
    simp only [length_map] at lengths
    rw [names_frame parameters values lengths]
    exact (reverse_perm _).nodup_iff.mpr distinct
  held name slot member := by
    obtain ⟨position, found⟩ := mem_iff_getElem?.mp (mem_reverse.mp member)
    obtain ⟨parameter, value, named, given, rfl, rfl⟩ : ∃ parameter value,
        parameters[position]? = some parameter ∧ values[position]? = some value ∧
        name = parameter.name ∧ slot = .scalar value := by
      rw [getElem?_zipWith] at found
      split at found
      · next parameter value named given =>
          cases found
          exact ⟨parameter, value, named, given, rfl, rfl⟩
      · cases found
    have type : parameter.type = value.type := by
      have both := congrArg (fun types => types[position]?) typed
      simpa [named, given] using both
    refine ⟨.param parameter.name value.type, .inr rfl, ?_, fun place home => ?_⟩
    · refine lookup_of_mem ?_ ?_
      · rw [names_parameterBindings]
        exact (reverse_perm _).nodup_iff.mpr distinct
      · rw [← type]
        exact mem_reverse.mpr (mem_map_of_mem (mem_of_getElem? named))
    · cases home
      exact frame_parameter same distinct named given trace

/-- The function of the program is the code of the declared one. -/
structure FunctionCode (declared : Declared) (place : Place) (draft final : Draft)
    (body closing : List Instr) (function : Function) : Prop where
  result : place.result = declared.result
  bindings : draft.bindings = parameterBindings declared.parameters
  loops : draft.context.loops = []
  lowered : lowerStmts place draft declared.body = .ok (body, final)
  parameters : function.parameters = declared.parameters.map fun parameter =>
    .param parameter.name parameter.type
  code : function.code = Instr.enter declared.name :: (body ++ closing)
  closing : closing = [] ∨ closing = [Instr.exit declared.name]
  /-- the positions of arguments are words -/
  count : declared.parameters.length ≤ 2 ^ 63

/-- The program has the code of every declared function. -/
def FunctionsCovered (env : Env) (program : Program) (code : Code) : Prop :=
  ∀ name declared, code.function? name = some declared →
    ∃ function place draft final body closing, program.function? name = some function ∧
      FunctionCode declared place draft final body closing function ∧
      ∀ stage : Stage, stage.env = env → stage.program = program → stage.function = function →
        stage.Fits code place ∧ stage.Admits code final

namespace Stage

variable {stage : Stage} {config : Config} {state : State} {rest : List Instr}
  {output : List Printed}

/-- The stage of a function that was called, with the code that waits for it. -/
def called (stage : Stage) (function : Function) (rest : List Instr) (state : State)
    (dest : Option Operand) : Stage :=
  ⟨stage.env, stage.program, function,
    ⟨⟨stage.function, rest, { state.locals with pending := [] }⟩, dest⟩ :: stage.callers⟩

/-- The step of a call. -/
theorem At.call (here : stage.At config ((Instr.call callee dest).atLine line :: rest) state output)
    (found : stage.program.function? callee = some function) :
    ∃ trace, (stage.called function rest state dest).At (stage.step config) function.code
      ⟨function.frame stage.env trace state.locals.pending, state.globals⟩ output := by
  obtain ⟨trace, rfl, printed⟩ := here
  let longer := trace ++ [Event.call callee state.locals.pending]
  refine ⟨longer, longer, ?_, (Event.printedOf_silent rfl trace).trans printed⟩
  change Config.invoke stage.env stage.program callee _ _ _ _ _ = _
  rw [Config.invoke, found]
  rfl

/-- The state behind a call. -/
def returned (stage : Stage) (state : State) (dest : Option Operand) (globals : Globals)
    (value : Word) : State :=
  match dest with
  | none => ⟨{ state.locals with pending := [] }, globals⟩
  | some dest => dest.assign stage.env.toSetting stage.function.owns
      ⟨{ state.locals with pending := [] }, globals⟩ value

theorem resume_at (state : State) (dest : Option Operand) (value : Option Word) (globals : Globals)
    (printed : Event.printedOf trace = output) :
    ∃ given, (∀ word, value = some word → given = word) ∧
      stage.At (Config.resume stage.env
        ⟨⟨stage.function, rest, { state.locals with pending := [] }⟩, dest⟩ stage.callers value
        globals trace) rest (stage.returned state dest globals given) output := by
  refine ⟨value.getD (stage.env.stray trace), fun word same => by rw [same]; rfl, ?_⟩
  cases dest with
  | none => exact ⟨trace, rfl, printed⟩
  | some dest =>
    refine ⟨_, rfl, ?_⟩
    rw [Event.printedOf_append, Operand.printedOf_stored, append_nil]
    exact printed

/-- A function that was called comes back. -/
theorem Poised.comeBack
    (poised : (stage.called function rest state dest).Poised config (.leave value) inner output) :
    ∃ given, (∀ word, value = some word → given = word) ∧
      stage.At (stage.step config) rest (stage.returned state dest inner.globals given) output := by
  obtain ⟨instr, after, ⟨trace, rfl, printed⟩, does⟩ := poised
  have same : instr.effect stage.env.toSetting function.owns ⟨inner.locals, inner.globals⟩ =
      .leave value := does
  have step : stage.step (.running ⟨function, instr :: after, inner.locals⟩
      (stage.called function rest state dest).callers inner.globals trace) =
      Config.resume stage.env ⟨⟨stage.function, rest, { state.locals with pending := [] }⟩, dest⟩
        stage.callers value inner.globals (trace ++ [.ret value]) := by
    simp only [Stage.step, Config.step, same, Config.perform]
    rfl
  change ∃ given, _ ∧ stage.At (stage.step (.running ⟨function, instr :: after, inner.locals⟩
    (stage.called function rest state dest).callers inner.globals trace)) _ _ _
  rw [step]
  exact resume_at state dest value inner.globals ((Event.printedOf_silent rfl trace).trans printed)

/-- So does one whose code has come to its end. -/
theorem At.comeBack (here : (stage.called function rest state dest).At config [] inner output) :
    ∃ given, stage.At (stage.step config) rest (stage.returned state dest inner.globals given)
      output := by
  obtain ⟨trace, rfl, printed⟩ := here
  have silent : (Event.ret none).printed? = none := rfl
  obtain ⟨given, _, there⟩ := resume_at state dest none inner.globals
    ((Event.printedOf_silent silent trace).trans printed)
  exact ⟨given, there⟩

end Stage

/-- Where the result of a call goes. -/
def callDest (context : Context) (result : DataType) : Option Operand :=
  if result.isVoid then none else some (.temp (tempName context.temps) result)

theorem code_call (context : Context) (line : Nat) (callee : String) (result : DataType)
    (operands : List Operand) :
    (Lowered.call context line callee result operands).code =
      Lowered.argCode line 0 operands ++
        [(Instr.call callee (callDest context result)).atLine line] := by
  unfold Lowered.call callDest
  cases result.isVoid <;> rfl

/-- What a call changes in the function that calls. -/
theorem Stage.returns {context : Context} {result : DataType} {world later : World}
    {globals : Globals} {given : Word} {value : Option Value} (idle : state.locals.pending = [])
    (same : globals = later.globals) (scopes : later.scopes = world.scopes)
    (fits : ∀ word, value = some word → result.isVoid = false ∧ word = ⟨result, given⟩)
    (here : stage.At config rest
      (stage.returned (state.withPending pending) (callDest context result) globals given)
      later.output) :
    stage.Returns context.temps (.call context line callee result operands) world state rest value
      later config := by
  have cleared : { (state.withPending pending).locals with pending := [] } = state.locals := by
    rw [← idle]
    rfl
  unfold Stage.returned at here
  rw [cleared] at here
  cases void : result.isVoid with
  | true =>
    rw [callDest, void] at here
    refine ⟨_, here, .setGlobal _ state globals, same, scopes, fun word known => ?_⟩
    have clash := (fits word known).1
    rw [void] at clash
    cases clash
  | false =>
    rw [callDest, void] at here
    refine ⟨_, here, ?_, same, scopes, fun word known => ?_⟩
    · exact (Keeps.setGlobal _ state globals).trans (.setTemp (Nat.le_refl _) _ given)
        (Nat.le_refl _)
    · rw [(fits word known).2]
      unfold Lowered.call
      rw [void]
      exact ⟨rfl, State.get_set_self ⟨state.locals, globals⟩ (.temp (tempName context.temps)) given,
        ⟨context.temps, Nat.lt_succ_self _, rfl⟩⟩

theorem FunctionCode.covers {code : Code} {declared : Declared} {place : Place}
    {draft final : Draft} {body closing : List Instr}
    (compiled : FunctionCode declared place draft final body closing stage.function)
    (fits : stage.Fits code place) (admits : stage.Admits code final)
    (handled : HandlersCovered stage.env stage.program code fuel handlers)
    (types : declared.parameters.map Parameter.type = values.map Value.type) {world : World}
    (here : stage.At config stage.function.code
      ⟨stage.function.frame stage.env trace (numbered 0 values), world.globals⟩ world.output) :
    stage.Covers fuel config (Source.execList code handlers declared.result declared.body
      { world with scopes := Source.frame declared.parameters values })
      (stage.Ends [] final.bindings closing) := by
  have distinct : (declared.parameters.map Parameter.name).Nodup := by
    have lowers := lowerStmts_lowers place _ _ _ declared.body compiled.lowered
    have bound := (admits.before lowers).distinct
    rw [compiled.bindings, names_parameterBindings] at bound
    exact (reverse_perm _).nodup_iff.mp bound
  have related : Related stage.function draft.bindings
      { world with scopes := Source.frame declared.parameters values }
      ⟨stage.function.frame stage.env trace (numbered 0 values), world.globals⟩ := by
    rw [compiled.bindings]
    exact related_frame compiled.parameters distinct types world trace
  rw [← compiled.result, ← compiled.loops]
  rw [compiled.code] at here
  exact (execList_covered fits handled declared.body admits (compiled.code ▸ suffix_cons _ _)
    compiled.lowered related (here.silent rfl rfl)).step

theorem Stage.Ends.comeBack {bindings : Bindings} {closing : List Instr} {flow : Flow}
    {later : World} {after : Config} (closed : closing = [] ∨ closing = [Instr.exit name])
    (result : flow.result later = .done value later)
    (ends : (stage.called function rest state dest).Ends [] bindings closing flow later after) :
    ∃ given, (∀ word, value = some word → given = word) ∧
      stage.At (stage.step after) rest (stage.returned state dest later.globals given)
        later.output := by
  cases flow with
  | next =>
    obtain ⟨inner, there, related⟩ := ends
    cases result
    rw [← related.globals]
    cases closed with
    | inl none =>
      subst none
      obtain ⟨given, arrived⟩ := there.comeBack
      exact ⟨given, fun word same => (by cases same), arrived⟩
    | inr exit =>
      subst exit
      exact Poised.comeBack ⟨_, _, there, rfl⟩
  | returned word =>
    obtain ⟨inner, poised, globals⟩ := ends
    cases result
    rw [← globals]
    exact poised.comeBack
  | broke | continued => cases result

variable {env : Env} {program : Program} {code : Code}
  (functions : FunctionsCovered env program code)
include functions

/-- A call of a declared function is covered. -/
theorem invoke_covered (handled : HandlersCovered env program code fuel handlers) :
    CallCovered env program code (fuel + 1) (Source.invoke code handlers) := by
  rintro stage rfl rfl context line callee result operands values world state config rest typed
    globals idle holds here
  unfold Source.invoke
  cases found : code.function? callee with
  | none => exact True.intro
  | some declared =>
    dsimp only
    split
    · next types =>
        obtain rfl := typed declared found
        obtain ⟨function, place, draft, final, body, closing, known, compiled, suits⟩ :=
          functions callee declared found
        have lengths : operands.length ≤ 2 ^ 63 := by
          have counted := congrArg List.length types
          rw [length_map, length_map] at counted
          rw [holds.length_eq, ← counted]
          exact compiled.count
        have waiting : state = state.withPending [] := by
          rw [← idle]
          rfl
        rw [code_call, append_assoc, waiting] at here
        obtain ⟨count, atCall⟩ := Stage.At.arguments holds (by omega) here
        obtain ⟨trace, entered⟩ := atCall.call known
        have same : (state.withPending ([] ++ numbered 0 values)).globals = world.globals := globals
        rw [same] at entered
        obtain ⟨fits, admits⟩ := suits (stage.called function rest
          (state.withPending ([] ++ numbered 0 values)) (callDest context declared.result)) rfl rfl rfl
        have run : stage.Covers fuel _ _ _ :=
          compiled.covers fits admits handled types entered
        refine (Stage.Covers.of_run (Stage.Covers.step_succ ?_)).mono (Nat.le_add_right _ count)
        have framed : stage.Covers fuel _ (Run.inFrame (Source.frame declared.parameters values)
            (Source.execList code handlers declared.result declared.body) world)
            fun flow later after => later.scopes = world.scopes ∧ ∃ scopes,
              (stage.called function rest (state.withPending ([] ++ numbered 0 values))
                (callDest context declared.result)).Ends [] final.bindings closing flow
                { later with scopes } after :=
          run.bind fun flow later after ends => ⟨0, rfl, later.scopes, ends⟩
        refine framed.bind ?_
        rintro flow later after ⟨scopes, inside, ends⟩
        have back {value : Option Word} (given : flow.result { later with scopes := inside } =
            .done value { later with scopes := inside }) :
            stage.Covers fuel after (.done (if declared.result.isVoid then none
              else value.map (Value.mk declared.result)) later)
              (stage.Returns context.temps
                (.call context line callee declared.result operands) world state rest) := by
          obtain ⟨word, same, arrived⟩ := ends.comeBack compiled.closing given
          refine ⟨1, Stage.returns idle rfl scopes (fun found known => ?_) arrived⟩
          cases void : declared.result.isVoid with
          | true =>
            rw [if_pos void] at known
            cases known
          | false =>
            rw [void, if_neg Bool.false_ne_true] at known
            obtain ⟨bits, rfl, rfl⟩ := Option.map_eq_some_iff.mp known
            exact ⟨rfl, by rw [same bits rfl]⟩
        cases flow with
        | broke | continued => exact True.intro
        | next | returned value => exact back rfl
    · exact True.intro

theorem handlers_covered (fuel : Nat) :
    HandlersCovered env program code fuel (Source.handlers code fuel) := by
  induction fuel with
  | zero =>
    refine ⟨?_, ?_⟩
    · rintro stage rfl rfl context line callee result operands values world state config rest _ _
        _ _ here
      exact ⟨0, Nat.le_refl 0, here.isRunning, here.printed⟩
    · rintro stage rfl rfl place draft after final line start labels loop bodyCode updateCode tail
        rest before world state config _ _ _ _ _ here _
      exact ⟨0, Nat.le_refl 0, here.isRunning, here.printed⟩
  | succ fuel ih =>
    exact ⟨invoke_covered functions ih, round_covered (Source.handlers_stack code fuel) ih⟩

end ArmBackend.Ir
