import ArmBackend.Proofs.Lowering.Flow

/-!
# Code of statements

The code of a statement covers its run, by recursion on the statement.  Loops are
left to the handlers, which are covered by the code of loops.
-/

namespace ArmBackend.Ir

open List

open Source (Value World Code Handlers Run Variable Outcome Flow Loop)

variable {type : DataType} {expr : Expr} {line : Nat} {initial : Option Expr} {position : Position}
  {name : String}

section

variable {stage : Stage} {code : Code} {place : Place} {handlers : Handlers} {fuel : Nat}
  {draft final : Draft} {world : World} {state : State} {config : Config}
  {instrs rest : List Instr}

section

variable (fits : stage.Fits code place)
  (calls : CallCovered stage.env stage.program code fuel handlers.call)
  (related : Related stage.function draft.bindings world state)
include fits calls related

/-- An initial value is stored. -/
theorem initialize_covered {target : Operand} {spot : Location}
    (named : target.location? = some spot) (avoids : Avoids code draft.bindings)
    (strings : (lowerStore line target (lowerInitial place draft target.type initial)).2.strings.entries
      <+: stage.program.strings.entries)
    (here : stage.At config ((lowerStore line target
      (lowerInitial place draft target.type initial)).1 ++ rest) state world.output) :
    stage.Covers fuel config (Source.evalInitial code handlers target.type initial world)
      fun value later after => value.type = target.type ∧ ∃ middle,
        stage.At after rest (middle.set spot value.bits) later.output ∧
        Related stage.function draft.bindings later middle := by
  simp only [lowerStore, Lowered.coerced, Lowered.after, append_assoc, cons_append,
    nil_append] at here
  cases initial with
  | none =>
    have zero : stage.Holds draft.context.temps state (.zero target.type) (.zero target.type) := by
      cases target.type <;> exact ⟨rfl, rfl, rfl⟩
    refine (Stage.store_covered fits.floats (.inl rfl) target here zero).imp ?_
    rintro fitted later after ⟨rfl, kind, middle, kept, globals, arrived⟩
    rw [Operand.assign_of_location? named] at arrived
    exact ⟨kind, middle, arrived, related.keeps kept (globals.trans related.globals) rfl⟩
  | some expr =>
    have inner := (Lowered.Tame.coerce ..).issued.strings.trans strings
    refine (eval_covered fits avoids calls related expr inner here).bind ?_
    rintro value between after ⟨first, there, kept, globals, scopes, holds⟩
    refine (Stage.store_covered fits.floats (.inl rfl) target there holds).imp ?_
    rintro fitted later last ⟨rfl, kind, middle, keptMore, same, arrived⟩
    rw [Operand.assign_of_location? named] at arrived
    have before := related.keeps kept globals scopes
    exact ⟨kind, middle, arrived, before.keeps keptMore (same.trans globals) rfl⟩

theorem varDecl_covered
    (admits : stage.Admits code (lowerVarDecl place draft line name type initial).2)
    (here : stage.At config ((lowerVarDecl place draft line name type initial).1 ++ rest) state
      world.output) (position : Position) (loops : List LoopLabels) :
    stage.Covers fuel config
      (Source.exec code handlers place.result (.varDecl position name type initial) world)
      (stage.Ends loops (lowerVarDecl place draft line name type initial).2.bindings rest) := by
  have earlier := admits.before (lowerVarDecl_lowers place draft line name type initial)
  have fresh : name ∉ draft.bindings.map Prod.fst := (nodup_cons.mp admits.distinct).1
  refine (initialize_covered fits calls related rfl earlier.avoids admits.strings here).bind ?_
  rintro value later after ⟨rfl, middle, there, before⟩
  exact ⟨0, middle.set (.var name) value.bits, there, before.declareScalar fresh value⟩

theorem arrayDecl_covered {size : Nat} {elements : List Expr}
    (admits : stage.Admits code (lowerArrayDecl place draft line name type size elements).2)
    (inside : (lowerArrayDecl place draft line name type size elements).1 ++ rest <:+
      stage.function.code)
    (here : stage.At config ((lowerArrayDecl place draft line name type size elements).1 ++ rest)
      state world.output) (position : Position) (loops : List LoopLabels) :
    stage.Covers fuel config
      (Source.exec code handlers place.result (.arrayDecl position name type size elements) world)
      (stage.Ends loops (lowerArrayDecl place draft line name type size elements).2.bindings
        rest) := by
  have fresh : name ∉ draft.bindings.map Prod.fst := (nodup_cons.mp admits.distinct).1
  have owned : stage.function.owns name = true := by
    refine List.any_eq_true.mpr ⟨(Instr.allocArray (.var name type) size).atLine line, ?_, ?_⟩
    · exact inside.subset (mem_cons_self ..)
    · simp [Instr.atLine, Instr.allocArray, Instr.unary, Instr.defined, Operand.location?]
  have there := here.silent rfl rfl
  have resolved : (place.resolve ((name, Storage.array name type) :: draft.bindings) name).type =
      type := by
    rw [Place.resolve, lookup_cons_self]
    rfl
  refine Stage.Covers.step ?_
  have declared := related.declareArray fresh owned type size
  exact (fill_covered fits admits.avoids declared calls resolved admits.strings there).bind
    fun _ _ _ ends => ⟨0, ends⟩

theorem assign_covered (lowered : lowerAssign place draft position name expr = .ok (instrs, final))
    (admits : stage.Admits code final)
    (here : stage.At config (instrs ++ rest) state world.output) (loops : List LoopLabels) :
    stage.Covers fuel config (Source.exec code handlers place.result (.assign position name expr)
      world) (stage.Ends loops final.bindings rest) := by
  obtain ⟨target, resolved, rfl, rfl⟩ := lowerAssign_ok lowered
  have inner := (Lowered.Tame.coerce ..).issued.strings.trans admits.strings
  simp only [lowerStore, Lowered.coerced, Lowered.after, append_assoc, cons_append,
    nil_append] at here
  refine (eval_covered fits admits.avoids calls related expr inner here).bind ?_
  rintro value between after ⟨middle, there, kept, globals, scopes, holds⟩
  refine (write_covered fits admits.avoids (related.keeps kept globals scopes) holds resolved
    there).bind ?_
  rintro _ later last ⟨state, arrived, written⟩
  exact ⟨0, state, arrived, written⟩

theorem indexAssign_covered {array : String} {index : Expr}
    (admits : stage.Admits code (lowerIndexAssign place draft position.line array index expr).2)
    (here : stage.At config
      ((lowerIndexAssign place draft position.line array index expr).1 ++ rest) state
      world.output) (loops : List LoopLabels) :
    stage.Covers fuel config
      (Source.exec code handlers place.result (.indexAssign position array index expr) world)
      (stage.Ends loops draft.bindings rest) := by
  have two := lowerExpr_tame place draft.bindings
    (lowerExpr place draft.bindings draft.context index).context expr
  have inner := (Lowered.Tame.coerce ..).issued.strings.trans admits.strings
  simp only [lowerIndexAssign, Lowered.coerced, Lowered.after, append_assoc,
    cons_append, nil_append] at here
  refine (eval_covered fits admits.avoids calls related index (two.issued.strings.trans inner)
    here).bind ?_
  rintro first between after ⟨middle, there, kept, globals, scopes, holds⟩
  have later := related.keeps kept globals scopes
  refine (eval_covered fits admits.avoids calls later expr inner there).bind ?_
  rintro value later last ⟨third, arrived, keptMore, globalsMore, scopesMore, holdsMore⟩
  refine (writeElement_covered fits admits.avoids
    ((related.keeps kept globals scopes).keeps keptMore globalsMore scopesMore)
    (holds.keeps keptMore two.issued.temps) holdsMore rfl arrived).bind ?_
  rintro _ later last ⟨state, arrived, written⟩
  exact ⟨0, state, arrived, written⟩

theorem return_covered
    (lowered : lowerReturn place draft position.line (some expr) = (instrs, final))
    (admits : stage.Admits code final)
    (here : stage.At config (instrs ++ rest) state world.output) (loops : List LoopLabels) :
    stage.Covers fuel config (Source.exec code handlers place.result (.ret position (some expr))
      world) (stage.Ends loops final.bindings rest) := by
  cases lowered
  have inner := (Lowered.Tame.coerce ..).issued.strings.trans admits.strings
  simp only [Lowered.coerced, Lowered.after, append_assoc, cons_append,
    nil_append] at here
  refine (eval_covered fits admits.avoids calls related expr inner here).bind ?_
  rintro value between after ⟨middle, there, kept, globals, scopes, holds⟩
  refine (Stage.fit_covered fits.floats there holds).bind ?_
  rintro fitted later last ⟨rfl, _, final, arrived, _, same, held⟩
  refine ⟨0, final, ⟨_, _, arrived, ?_⟩, same.trans globals⟩
  change Effect.leave (some (stage.value final _)) = _
  rw [held.bits]

theorem print_covered {newline : Bool} (lowered : lowerPrint place draft line newline expr =
      (instrs, final)) (admits : stage.Admits code final)
    (here : stage.At config (instrs ++ rest) state world.output) (loops : List LoopLabels) :
    stage.Covers fuel config ((do
      let value ← Source.eval code handlers expr
      Run.print newline value
      return Flow.next) world) (stage.Ends loops final.bindings rest) := by
  cases lowered
  simp only [append_assoc, cons_append, nil_append] at here
  refine (eval_covered fits admits.avoids calls related expr admits.strings here).bind ?_
  rintro value between after ⟨middle, there, kept, globals, scopes, holds⟩
  have does : stage.effect middle ((Instr.print newline
      (lowerExpr place draft.bindings draft.context expr).operand).atLine line) =
      .next middle [.print ⟨newline, value.type, value.bits⟩] := by
    rw [← holds.type, ← holds.bits]
    cases newline <;> rfl
  exact ⟨1, middle, there.next does, { related.keeps kept globals scopes with }⟩

theorem evalUnused_covered (avoids : Avoids code draft.bindings)
    (strings : (lowerExpr place draft.bindings draft.context expr).context.strings.entries <+:
      stage.program.strings.entries)
    (here : stage.At config ((lowerExpr place draft.bindings draft.context expr).code ++ rest)
      state world.output) :
    stage.Covers fuel config (Source.evalUnused code handlers expr world)
      fun _ later after => ∃ final, stage.At after rest final later.output ∧
        Related stage.function draft.bindings later final := by
  unfold Source.evalUnused
  split
  · next position callee arguments =>
      have inner := (Lowered.Tame.call _ _ _ _
        (lowerExprs place draft.bindings draft.context arguments).operands).issued.strings.trans
          strings
      rw [lowerExpr] at here
      simp only [Lowered.after, append_assoc] at here
      refine (evalList_covered fits avoids calls related arguments inner here).bind ?_
      rintro values between after ⟨middle, there, kept, globals, scopes, holds⟩
      refine (calls stage rfl rfl _ _ _ _ _ _ _ _ _ _ (fits.results callee) globals
        (kept.pending.trans related.pending) holds there).bind ?_
      rintro value later last ⟨final, arrived, keptMore, globalsMore, scopesMore, _⟩
      exact ⟨0, final, arrived,
        (related.keeps kept globals scopes).keeps keptMore globalsMore scopesMore⟩
  · refine (eval_covered fits avoids calls related _ strings here).bind ?_
    rintro value between after ⟨middle, there, kept, globals, scopes, _⟩
    exact ⟨0, middle, there, related.keeps kept globals scopes⟩

end

theorem lowerLoopJump_parts {misuse : Misuse} {f : LoopLabels → String} {target : Option String}
    (same : target = draft.context.loops.head?.map f)
    (lowered : lowerLoopJump draft position misuse target = .ok (instrs, final)) :
    ∃ labels, draft.context.loops.head? = some labels ∧
      instrs = [(Instr.jump (f labels)).atLine position.line] ∧ final = draft := by
  cases found : draft.context.loops.head? with
  | none =>
    rw [same, found] at lowered
    cases lowered
  | some labels =>
    rw [same, found] at lowered
    cases lowered
    exact ⟨labels, rfl, rfl, rfl⟩

theorem lowerOptional_suffix {stmt : Option Stmt}
    (lowered : lowerOptional place draft stmt = .ok (instrs, final)) :
    draft.context.loops = final.context.loops ∧ draft.bindings <:+ final.bindings ∧
      draft.context.strings.entries <+: final.context.strings.entries := by
  cases stmt with
  | none =>
    cases lowered
    exact ⟨rfl, suffix_refl _, prefix_refl _⟩
  | some stmt =>
    have lowers := lowerStmt_lowers place _ _ _ stmt lowered
    exact ⟨lowers.loops.symm, lowers.suffix, lowers.issued.strings⟩

theorem LoopCode.suffix {labels : LoopLabels} {loop : Loop} {bodyCode updateCode : List Instr}
    {after : Draft}
    (parts : LoopCode place draft line labels loop bodyCode updateCode after final) :
    draft.bindings <:+ final.bindings ∧
      draft.context.strings.entries <+: final.context.strings.entries := by
  have test := (lowerExit_grows place draft line labels.breakTo loop.condition).1
  have body := (lowerStmts_lowers place _ _ _ loop.body parts.body).inLoop
  obtain ⟨_, grown, strings⟩ := lowerOptional_suffix parts.update
  have both := test.append body
  exact ⟨both.suffix.trans grown, both.issued.strings.trans strings⟩

end

/-- Wherever the code is written, it covers the run. -/
abbrev Stage.Executes {α : Type} (stage : Stage) (code : Code) (fuel : Nat)
    (lower : Draft → α → Lowering) (run : α → Run Flow) (source : α) : Prop :=
  ∀ {draft final : Draft} {world : World} {state : State} {config : Config}
    {instrs rest : List Instr}, stage.Admits code final →
    instrs ++ rest <:+ stage.function.code → lower draft source = .ok (instrs, final) →
    Related stage.function draft.bindings world state →
    stage.At config (instrs ++ rest) state world.output →
    stage.Covers fuel config (run source world)
      (stage.Ends draft.context.loops final.bindings rest)

variable {stage : Stage} {code : Code} {place : Place} {handlers : Handlers} {fuel : Nat}

section

variable (fits : stage.Fits code place)
  (handled : HandlersCovered stage.env stage.program code fuel handlers)
include fits handled

section

variable {condition : Expr} {thenBranch : List Stmt}
  (thenCovered : stage.Executes code fuel (lowerStmts place)
    (Source.execList code handlers place.result) thenBranch)
include thenCovered

theorem if_covered : stage.Executes code fuel (lowerStmt place)
    (Source.exec code handlers place.result) (.ifElse position condition thenBranch none) := by
  intro draft final world state config instrs rest admits inside lowered related here
  obtain ⟨thenCode, inner, same⟩ := lowerStmt_if lowered
  have test := lowerExpr_tame place draft.bindings draft.context condition
  have lowers := lowerStmts_lowers place _ _ _ thenBranch inner
  have earlier := admits.before lowers
  subst same
  simp only [append_assoc, cons_append, nil_append] at here inside
  have behind := suffix_next (suffix_behind inside)
  have label := afterLabel_of_suffix fits.labels (suffix_behind behind)
  refine (eval_covered fits earlier.avoids handled.call related condition earlier.strings
    here).bind ?_
  rintro value between after ⟨middle, there, kept, globals, scopes, holds⟩
  have later := related.keeps kept globals scopes
  refine Stage.Covers.step ?_
  cases truth : value.isTrue with
  | true =>
    rw [if_pos rfl]
    have covers := thenCovered admits behind inner later (there.stay holds.bits truth)
    rw [← test.loops]
    exact (Stage.inScope_covered covers).skip fun _ _ _ => Stage.At.mark
  | false =>
    rw [if_neg Bool.false_ne_true]
    exact ⟨0, middle, there.branch holds.bits truth label,
      later.grow lowers.suffix admits.distinct⟩

theorem ifElse_covered {elseBranch : List Stmt}
    (elseCovered : stage.Executes code fuel (lowerStmts place)
      (Source.execList code handlers place.result) elseBranch) :
    stage.Executes code fuel (lowerStmt place) (Source.exec code handlers place.result)
      (.ifElse position condition thenBranch (some elseBranch)) := by
  intro draft final world state config instrs rest admits inside lowered related here
  obtain ⟨thenCode, elseCode, middleDraft, one, two, same⟩ := lowerStmt_ifElse lowered
  have test := lowerExpr_tame place draft.bindings draft.context condition
  have first := lowerStmts_lowers place _ _ _ thenBranch one
  have second := lowerStmts_lowers place _ _ _ elseBranch two
  have between := admits.before second
  have earlier := between.before first
  subst same
  simp only [append_assoc, cons_append, nil_append] at here inside
  have behind := suffix_next (suffix_behind inside)
  have jump := suffix_next (suffix_behind behind)
  have elseLabel := afterLabel_of_suffix fits.labels jump
  have endLabel := afterLabel_of_suffix fits.labels (suffix_behind (suffix_next jump))
  refine (eval_covered fits earlier.avoids handled.call related condition earlier.strings
    here).bind ?_
  rintro value world after ⟨middle, there, kept, globals, scopes, holds⟩
  have later := related.keeps kept globals scopes
  refine Stage.Covers.step ?_
  rw [← test.loops]
  cases truth : value.isTrue with
  | true =>
    rw [if_pos rfl]
    have covers := thenCovered between behind one later (there.stay holds.bits truth)
    have skipped := (Stage.inScope_covered covers).skip fun _ _ _ done =>
      done.jump rfl endLabel
    exact skipped.imp fun _ _ _ ends => ends.grow second.suffix admits.distinct
  | false =>
    rw [if_neg Bool.false_ne_true]
    have covers := elseCovered admits (suffix_next jump) two
      (later.grow first.suffix between.distinct) (there.branch holds.bits truth elseLabel)
    rw [first.loops] at covers
    exact (Stage.inScope_covered covers).skip fun _ _ _ => Stage.At.mark

end

theorem while_covered {condition : Expr} {body : List Stmt} :
    stage.Executes code fuel (lowerStmt place) (Source.exec code handlers place.result)
      (.whileLoop position condition body) := by
  intro draft final world state config instrs rest admits inside lowered related here
  obtain ⟨bodyCode, after, parts, same⟩ := lowerStmt_while lowered
  subst same
  simp only [append_assoc, cons_append, nil_append] at here inside
  refine handled.loop stage rfl rfl place (draft.issueLabels 2) _ _ _ _ _ _ _ _ _ _ _ _ _ _ fits
    parts admits
    ⟨afterLabel_of_suffix fits.labels inside, ?_, suffix_next inside, .inl ⟨rfl, rfl, rfl⟩⟩
    related here here.mark
  have tail := suffix_next (suffix_behind (suffix_behind (suffix_next inside)))
  exact afterLabel_of_suffix fits.labels tail

theorem for_covered {start update : Option Stmt} {condition : Option Expr} {body : List Stmt}
    (startCovered : ∀ stmt ∈ start, stage.Executes code fuel (lowerStmt place)
      (Source.exec code handlers place.result) stmt) :
    stage.Executes code fuel (lowerStmt place) (Source.exec code handlers place.result)
      (.forLoop position start condition update body) := by
  intro draft final world state config instrs rest admits inside lowered related here
  obtain ⟨startCode, begun, bodyCode, updateCode, after, first, parts, same⟩ :=
    lowerStmt_for lowered
  obtain ⟨loops, grown, strings⟩ := lowerOptional_suffix first
  subst same
  simp only [append_assoc, cons_append, nil_append] at here inside
  have head := suffix_behind inside
  have tail := suffix_behind (suffix_behind (suffix_next head))
  have leave := suffix_next (suffix_behind (suffix_next tail))
  have ended := parts.suffix
  have middle : stage.Admits code begun := admits.until ended.1 ended.2
  have layout : LoopLayout stage.function (labelName begun.context.labels)
      ⟨labelName (begun.context.labels + 1), labelName (begun.context.labels + 2)⟩ update _
      bodyCode updateCode _ rest :=
    ⟨afterLabel_of_suffix fits.labels head, afterLabel_of_suffix fits.labels leave,
      suffix_next head, .inr ⟨rfl, afterLabel_of_suffix fits.labels tail⟩⟩
  have goesOn (world : World) (state : State) (config : Config)
      (there : stage.At config (Instr.mark (labelName begun.context.labels) :: _) state
        world.output)
      (later : Related stage.function begun.bindings world state) :=
    handled.loop stage rfl rfl place (begun.issueLabels 3) _ _ _ _ _ _ _ _ _ _ _ _ _ _ fits
      parts admits layout later there there.mark
  cases start with
  | none =>
    cases first
    exact Stage.inScope_covered (goesOn world state config here related)
  | some stmt =>
    have covers := startCovered stmt rfl middle inside first related here
    refine Stage.inScope_covered (covers.andThen ended.1 admits.distinct ?_)
    rw [loops]
    exact fun world state config _ there later => goesOn world state config there later

end

mutual

/-- The code of a statement covers its run. -/
theorem exec_covered (fits : stage.Fits code place)
    (handled : HandlersCovered stage.env stage.program code fuel handlers) : (stmt : Stmt) →
    stage.Executes code fuel (lowerStmt place) (Source.exec code handlers place.result) stmt
  | .varDecl position _ _ _ => fun admits _ lowered related here => by
    cases lowered
    exact varDecl_covered fits handled.call related admits here position _
  | .arrayDecl position _ _ _ _ => fun admits inside lowered related here => by
    cases lowered
    exact arrayDecl_covered fits handled.call related admits inside here position _
  | .assign _ _ _ => fun admits _ lowered related here => by
    rw [lowerStmt] at lowered
    exact assign_covered fits handled.call related lowered admits here _
  | .indexAssign _ _ _ _ => fun admits _ lowered related here => by
    cases lowered
    exact indexAssign_covered fits handled.call related admits here _
  | .ifElse _ _ thenBranch none => if_covered fits handled (execList_covered fits handled thenBranch)
  | .ifElse _ _ thenBranch (some elseBranch) =>
    ifElse_covered fits handled (execList_covered fits handled thenBranch)
      (execList_covered fits handled elseBranch)
  | .whileLoop _ _ _ => while_covered fits handled
  | .forLoop _ none _ _ _ => for_covered fits handled (by rintro _ ⟨⟩)
  | .forLoop _ (some start) _ _ _ =>
    for_covered fits handled (by rintro _ ⟨⟩; exact exec_covered fits handled start)
  | .block _ body => fun admits inside lowered related here => by
    exact Stage.inScope_covered
      (execList_covered fits handled body admits inside lowered related here)
  | .functionDecl _ _ _ _ _ => fun _ _ lowered related here => by
    cases lowered
    exact ⟨0, _, here, related⟩
  | .ret position none => fun _ _ lowered related here => by
    cases lowered
    exact ⟨0, _, ⟨_, _, here, rfl⟩, related.globals⟩
  | .ret position (some expr) => fun admits _ lowered related here => by
    rw [lowerStmt] at lowered
    exact return_covered fits handled.call related (Except.ok.inj lowered) admits here _
  | .print position expr
  | .println position expr => fun admits _ lowered related here => by
    rw [lowerStmt] at lowered
    exact print_covered fits handled.call related (Except.ok.inj lowered) admits here _
  | .expr _ expr => fun admits _ lowered related here => by
    cases lowered
    exact (evalUnused_covered fits handled.call related admits.avoids admits.strings here).bind
      fun _ _ _ ends => ⟨0, ends⟩
  | .breakLoop position
  | .continueLoop position => fun _ _ lowered related here => by
    rw [lowerStmt] at lowered
    obtain ⟨labels, inner, rfl, rfl⟩ := lowerLoopJump_parts rfl lowered
    exact ⟨0, _, labels, inner, ⟨_, _, here, rfl⟩, related⟩

theorem execList_covered (fits : stage.Fits code place)
    (handled : HandlersCovered stage.env stage.program code fuel handlers) :
    (stmts : List Stmt) → stage.Executes code fuel (lowerStmts place)
      (Source.execList code handlers place.result) stmts
  | [] => fun _ _ lowered related here => by
    cases lowered
    exact ⟨0, _, here, related⟩
  | stmt :: stmts => fun admits inside lowered related here => by
    obtain ⟨first, others, between, one, two, rfl⟩ := lowerStmts_cons lowered
    have lowers := lowerStmts_lowers place _ _ _ stmts two
    rw [append_assoc] at here inside
    refine (exec_covered fits handled stmt (admits.before lowers) inside one related here).andThen
      lowers.suffix admits.distinct fun between state after _ there later => ?_
    have covers := execList_covered fits handled stmts admits (suffix_behind inside) two later there
    rwa [(lowerStmt_lowers place _ _ _ stmt one).loops] at covers

end

end ArmBackend.Ir
