import ArmBackend.Proofs.Lowering.Stmt

/-!
# Code of loops

One round of a loop is covered by its code, given that the rounds behind it are.
The step that enters the code pays for the round.
-/

namespace ArmBackend.Ir

open Source (World Code Handlers Run Flow Loop)

section

variable {stage : Stage} {code : Code} {place : Place} {handlers : Handlers} {fuel : Nat}

theorem test_covered (fits : stage.Fits code place)
    (calls : CallCovered stage.env stage.program code fuel handlers.call) {draft : Draft}
    {line : Nat} {target : String} {condition : Option Expr} {world : World} {state : State}
    {config : Config} {next rest : List Instr}
    (admits : stage.Admits code (lowerExit place draft line target condition).2)
    (leave : afterLabel target stage.function.code = some rest)
    (related : Related stage.function draft.bindings world state)
    (here : stage.At config ((lowerExit place draft line target condition).1 ++ next) state
      world.output) :
    stage.Covers fuel config (Source.test code handlers condition world)
      fun goesOn later after => ∃ final,
        stage.At after (if goesOn then next else rest) final later.output ∧
        Related stage.function draft.bindings later final := by
  cases condition with
  | none => exact ⟨0, state, here, related⟩
  | some expr =>
    simp only [lowerExit, List.append_assoc, List.cons_append, List.nil_append] at here
    have strings : (lowerExpr place draft.bindings draft.context expr).context.strings.entries <+:
      stage.program.strings.entries := admits.strings
    have avoids : Avoids code draft.bindings := admits.avoids
    refine (eval_covered fits avoids calls related expr strings here).bind ?_
    rintro value later after ⟨final, there, kept, globals, scopes, holds⟩
    have behind := related.keeps kept globals scopes
    cases truth : value.isTrue with
    | true => exact ⟨1, final, there.stay holds.bits truth, behind⟩
    | false => exact ⟨1, final, there.branch holds.bits truth leave, behind⟩

section

variable {draft after final : Draft} {line : Nat} {start : String} {labels : LoopLabels}
  {loop : Loop} {bodyCode updateCode tail rest : List Instr} {later : World} {next : State}
  {there : Config} (fits : stage.Fits code place)
  (handled : HandlersCovered stage.env stage.program code fuel handlers)
  (parts : LoopCode place draft line labels loop bodyCode updateCode after final)
  (admits : stage.Admits code final)
  (layout : LoopLayout stage.function start labels loop.update
    (testCode place draft line labels loop).1 bodyCode updateCode tail rest)
  (known : ∀ name ∈ later.names, name ∈ draft.bindings.map Prod.fst)
include fits handled parts admits layout known

/-- The next round is covered.  The variables in scope behind a round are those in front of it. -/
theorem again_covered (bound : Related stage.function final.bindings later next)
    (entering : stage.Poised there (.jump (some start)) next later.output) :
    stage.Covers fuel there (handlers.loop place.result loop later)
      (stage.Ends draft.context.loops final.bindings rest) := by
  have back := bound.shrink parts.suffix.1 admits.distinct known
  obtain ⟨instr, behind, standing, _⟩ := id entering
  exact handled.loop stage rfl rfl place draft after final line start labels loop bodyCode
    updateCode tail rest _ later next there fits parts admits layout back standing
    (entering.jump layout.head)

/-- What follows the body of a round is covered: the update and the next round. -/
theorem update_covered (stack : handlers.Stack)
    (bound : Related stage.function after.bindings later next)
    (standing : stage.At there (updateCode ++ Instr.jump start :: Instr.mark labels.breakTo :: rest)
      next later.output)
    (inside : updateCode ++ Instr.jump start :: Instr.mark labels.breakTo :: rest <:+
      stage.function.code) :
    stage.Covers fuel there ((Source.execUpdate code handlers place.result loop.update >>=
      Flow.andThen (handlers.loop place.result loop)) later)
      (stage.Ends draft.context.loops final.bindings rest) := by
  have lowered := parts.update
  cases found : loop.update with
  | none =>
    rw [found] at lowered
    cases lowered
    exact again_covered fits handled parts admits layout known bound ⟨_, _, standing, rfl⟩
  | some stmt =>
    rw [found] at lowered
    have run := exec_covered fits handled stmt admits inside lowered bound standing
    have test := (lowerExit_grows place draft line labels.breakTo loop.condition).1
    have loops : after.exitLoop.context.loops = draft.context.loops :=
      (lowerStmts_lowers place _ _ _ loop.body parts.body).inLoop.loops.trans test.loops
    rw [loops] at run
    refine (Stage.inScope_covered run).andThen (List.suffix_refl _) admits.distinct ?_
    intro last state stop done arrived related
    have names := Source.names_inScope (Source.exec_stacks stack _ stmt) done
    exact again_covered fits handled parts admits layout (names ▸ known) related
      ⟨_, _, arrived, rfl⟩

end

/-- One round of a loop is covered. -/
theorem round_covered {env : Env} {program : Program} (stack : handlers.Stack)
    (handled : HandlersCovered env program code fuel handlers) :
    LoopCovered env program code (fuel + 1) (Source.round code handlers) := by
  rintro stage rfl rfl place draft after final line start labels loop bodyCode updateCode tail rest
    before world state config fits parts admits layout related _ here
  have test := (lowerExit_grows place draft line labels.breakTo loop.condition).1
  have body := lowerStmts_lowers place _ _ _ loop.body parts.body
  obtain ⟨updateLoops, updateGrown, updateStrings⟩ := lowerOptional_suffix parts.update
  have behindBody : stage.Admits code after := admits.until updateGrown updateStrings
  have atBody := behindBody.before body
  have behindTest : stage.Admits code (testCode place draft line labels loop).2 :=
    ⟨atBody.distinct, atBody.avoids, atBody.strings⟩
  refine Stage.Covers.step_succ ?_
  refine (test_covered fits handled.call behindTest layout.leave related here).bind ?_
  rintro goesOn between reached ⟨middle, there, later⟩
  cases goesOn with
  | false => exact ⟨0, middle, there, later.grow parts.suffix.1 admits.distinct⟩
  | true =>
    have run := execList_covered fits handled loop.body behindBody (suffix_behind layout.inside)
      parts.body (later.grow test.suffix atBody.distinct) there
    refine (Stage.inScope_covered run).known.bind ?_
    rintro flow last stop ⟨done, ends⟩
    have known : ∀ name ∈ last.names, name ∈ draft.bindings.map Prod.fst := by
      rw [Source.names_inScope (Source.execList_stacks stack _ loop.body) done]
      intro name member
      obtain ⟨⟨_, slot⟩, inside, rfl⟩ := List.mem_map.mp member
      exact later.mem_keys inside
    cases flow with
    | returned value => exact ⟨0, ends⟩
    | broke =>
      obtain ⟨next, inner, same, poised, bound⟩ := ends
      cases same
      exact ⟨1, next, poised.jump layout.leave, bound.grow updateGrown admits.distinct⟩
    | next =>
      obtain ⟨next, standing, bound⟩ := ends
      have behind := suffix_behind (suffix_behind layout.inside)
      cases layout.tail with
      | inl plain =>
        obtain ⟨same, _, without⟩ := plain
        have lowered := parts.update
        rw [without] at lowered
        cases lowered
        subst same
        exact update_covered fits handled parts admits layout known stack bound standing behind
      | inr counting =>
        obtain ⟨same, _⟩ := counting
        subst same
        exact (update_covered fits handled parts admits layout known stack bound standing.mark
          (suffix_next behind)).step
    | continued =>
      obtain ⟨next, inner, same, poised, bound⟩ := ends
      cases same
      have behind := suffix_behind (suffix_behind layout.inside)
      cases layout.tail with
      | inl plain =>
        obtain ⟨_, same, without⟩ := plain
        have grown := bound.grow updateGrown admits.distinct
        have covers := again_covered fits handled parts admits layout known grown (same ▸ poised)
        change stage.Covers fuel _ ((Source.execUpdate code handlers place.result loop.update
          >>= Flow.andThen (handlers.loop place.result loop)) last) _
        rw [without]
        exact covers
      | inr counting =>
        obtain ⟨same, label⟩ := counting
        subst same
        exact (update_covered fits handled parts admits layout known stack bound (poised.jump label)
          (suffix_next behind)).step

end

end ArmBackend.Ir
