import ArmBackend.Proofs.Lowering.Store

/-!
# How the code of statements ends

A statement that goes on leaves its code at the end; one that leaves a loop or the
function leaves it in front of the jump or the return.  The code of a loop is entered
by one step, which is the time that a round costs.
-/

namespace ArmBackend.Ir

open List

open Source (Value World Code Handlers Run Variable Outcome Flow Loop)

variable {name : String} {world : World}

theorem afterLabel_of_suffix {code after : List Instr} (distinct : (marksOf code).Nodup)
    (inside : Instr.mark name :: after <:+ code) : afterLabel name code = some after :=
  afterLabel_of_nodup distinct inside (by simp [Instr.marks, Instr.mark])

namespace Stage

section

variable (stage : Stage)

/-- Where the code stands when statements have ended. -/
def Ends (loops : List LoopLabels) (bindings : Bindings) (rest : List Instr) (flow : Flow)
    (later : World) (after : Config) : Prop :=
  match flow with
  | .next => ∃ state, stage.At after rest state later.output ∧
      Related stage.function bindings later state
  | .broke => ∃ state labels, loops.head? = some labels ∧
      stage.Poised after (.jump (some labels.breakTo)) state later.output ∧
      Related stage.function bindings later state
  | .continued => ∃ state labels, loops.head? = some labels ∧
      stage.Poised after (.jump (some labels.continueTo)) state later.output ∧
      Related stage.function bindings later state
  | .returned value => ∃ state,
      stage.Poised after (.leave value) state later.output ∧
      state.globals = later.globals

/-- Names are bound once, none of them is shared, and the program has the strings. -/
structure Admits (code : Code) (draft : Draft) : Prop where
  distinct : (draft.bindings.map Prod.fst).Nodup
  avoids : Avoids code draft.bindings
  strings : draft.context.strings.entries <+: stage.program.strings.entries

end

variable {stage : Stage} {loops : List LoopLabels} {bindings newer : Bindings}
  {rest tail : List Instr} {flow : Flow} {later : World} {after config : Config} {fuel : Nat}
  {code : Code}

theorem Admits.until {first last : Draft} (admits : stage.Admits code last)
    (grown : first.bindings <:+ last.bindings)
    (strings : first.context.strings.entries <+: last.context.strings.entries) :
    stage.Admits code first := by
  obtain ⟨added, same⟩ := grown
  refine ⟨?_, fun name member => admits.avoids name ?_, strings.trans admits.strings⟩
  · have all := admits.distinct
    rw [← same, map_append] at all
    exact (nodup_append.mp all).2.1
  · rw [← same, map_append]
    exact mem_append_right _ member

theorem Admits.before {first last : Draft} {declared : Bindings} {instrs : List Instr}
    (lowers : first.Lowers declared instrs last) (admits : stage.Admits code last) :
    stage.Admits code first :=
  admits.until lowers.suffix lowers.issued.strings

theorem Ends.grow (ends : stage.Ends loops bindings rest flow later after)
    (grown : bindings <:+ newer) (distinct : (newer.map Prod.fst).Nodup) :
    stage.Ends loops newer rest flow later after := by
  cases flow with
  | next =>
    obtain ⟨state, here, related⟩ := ends
    exact ⟨state, here, related.grow grown distinct⟩
  | broke | continued =>
    obtain ⟨state, labels, inner, poised, related⟩ := ends
    exact ⟨state, labels, inner, poised, related.grow grown distinct⟩
  | returned value => exact ends

/-- The variables of a scope are gone behind it. -/
theorem Ends.leave (ends : stage.Ends loops bindings rest flow later after) (count : Nat) :
    stage.Ends loops bindings rest flow { later with scopes := later.scopes.drop count } after := by
  cases flow with
  | next =>
    obtain ⟨state, here, related⟩ := ends
    exact ⟨state, here, related.leave count⟩
  | broke | continued =>
    obtain ⟨state, labels, inner, poised, related⟩ := ends
    exact ⟨state, labels, inner, poised, related.leave count⟩
  | returned value => exact ends

theorem inScope_covered {inner : Run Flow}
    (covers : stage.Covers fuel config (inner world) (stage.Ends loops bindings rest)) :
    stage.Covers fuel config (Run.inScope inner world) (stage.Ends loops bindings rest) :=
  covers.bind fun _ _ _ ends => ⟨0, ends.leave _⟩

/-- A step behind statements that go on. -/
theorem Covers.skip {outcome : Outcome Flow}
    (covers : stage.Covers fuel config outcome (stage.Ends loops bindings tail))
    (steps : ∀ config state output, stage.At config tail state output →
      stage.At (stage.step config) rest state output) :
    stage.Covers fuel config outcome (stage.Ends loops bindings rest) := by
  cases outcome with
  | fault fault => exact True.intro
  | timeout output => exact covers
  | done flow world =>
    obtain ⟨count, ends⟩ := covers
    cases flow with
    | next =>
      obtain ⟨state, here, related⟩ := ends
      refine ⟨count + 1, state, ?_, related⟩
      rw [stage.run_add]
      exact steps _ _ _ here
    | broke | continued | returned value => exact ⟨count, ends⟩

theorem Covers.andThen {first next : Run Flow}
    (covers : stage.Covers fuel config (first world) (stage.Ends loops bindings tail))
    (grown : bindings <:+ newer) (distinct : (newer.map Prod.fst).Nodup)
    (goesOn : ∀ between state after, first world = .done .next between →
      stage.At after tail state between.output → Related stage.function bindings between state →
      stage.Covers fuel after (next between) (stage.Ends loops newer rest)) :
    stage.Covers fuel config ((first >>= Flow.andThen next) world)
      (stage.Ends loops newer rest) := by
  refine covers.known.bind fun flow between after done => ?_
  obtain ⟨known, ends⟩ := done
  cases flow with
  | next =>
    obtain ⟨state, here, related⟩ := ends
    exact goesOn between state after known here related
  | broke | continued => exact ⟨0, ends.grow grown distinct⟩
  | returned value => exact ⟨0, ends⟩

theorem At.mark {state : State} {output : List Printed}
    (here : stage.At config (Instr.mark name :: rest) state output) :
    stage.At (stage.step config) rest state output :=
  here.silent rfl rfl

variable {condition : Operand} {label : String} {line : Nat} {state : State} {output : List Printed}
  {value : Value}
  (here : stage.At config ((Instr.jumpIf false condition label).atLine line :: rest) state output)
  (holds : stage.value state condition = value.bits)
include here holds

/-- A conditional jump that is not taken. -/
theorem At.stay (isTrue : value.isTrue = true) :
    stage.At (stage.step config) rest state output := by
  refine here.silent (if_neg fun zero => ?_) rfl
  have same : stage.value state condition = 0 := zero
  simp [Value.isTrue, ← holds, same] at isTrue

/-- A conditional jump that is taken. -/
theorem At.branch {target : List Instr} (isFalse : value.isTrue = false)
    (found : afterLabel label stage.function.code = some target) :
    stage.At (stage.step config) target state output := by
  refine here.jump (if_pos ?_) found
  change stage.value state condition = 0
  rw [holds]
  simpa [Value.isTrue] using isFalse

end Stage

theorem suffix_behind {front tail whole : List Instr} (inside : front ++ tail <:+ whole) :
    tail <:+ whole :=
  (suffix_append front tail).trans inside

theorem suffix_next {instr : Instr} {tail whole : List Instr} (inside : instr :: tail <:+ whole) :
    tail <:+ whole :=
  (suffix_cons instr tail).trans inside

/-- The layout of the code of a loop: where its labels are, and what follows its body. -/
structure LoopLayout (function : Function) (start : String) (labels : LoopLabels)
    (update : Option Stmt) (test bodyCode updateCode tail rest : List Instr) : Prop where
  head : afterLabel start function.code = some (test ++ (bodyCode ++ tail))
  leave : afterLabel labels.breakTo function.code = some rest
  inside : test ++ (bodyCode ++ tail) <:+ function.code
  tail : (tail = Instr.jump start :: Instr.mark labels.breakTo :: rest ∧
      labels.continueTo = start ∧ update = none) ∨
    (tail = Instr.mark labels.continueTo ::
        (updateCode ++ Instr.jump start :: Instr.mark labels.breakTo :: rest) ∧
      afterLabel labels.continueTo function.code =
        some (updateCode ++ Instr.jump start :: Instr.mark labels.breakTo :: rest))

/-- The handler of loops is covered by the code of loops, which is entered by one step. -/
def LoopCovered (env : Env) (program : Program) (code : Code) (fuel : Nat)
    (run : DataType → Loop → Run Flow) : Prop :=
  ∀ (stage : Stage), stage.env = env → stage.program = program →
  ∀ (place : Place) (draft after final : Draft) (line : Nat) (start : String)
    (labels : LoopLabels) (loop : Loop) (bodyCode updateCode tail rest before : List Instr)
    (world : World) (state : State) (config : Config),
    stage.Fits code place →
    LoopCode place draft line labels loop bodyCode updateCode after final →
    stage.Admits code final →
    LoopLayout stage.function start labels loop.update
      (testCode place draft line labels loop).1 bodyCode updateCode tail rest →
    Related stage.function draft.bindings world state →
    stage.At config before state world.output →
    stage.At (stage.step config)
      ((testCode place draft line labels loop).1 ++ (bodyCode ++ tail)) state world.output →
    stage.Covers fuel config (run place.result loop world)
      (stage.Ends draft.context.loops final.bindings rest)

/-- Both handlers are covered. -/
structure HandlersCovered (env : Env) (program : Program) (code : Code) (fuel : Nat)
    (handlers : Handlers) : Prop where
  call : CallCovered env program code fuel handlers.call
  loop : LoopCovered env program code fuel handlers.loop

end ArmBackend.Ir
