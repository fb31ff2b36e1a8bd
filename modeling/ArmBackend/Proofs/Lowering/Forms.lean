import ArmBackend.Proofs.Lowering.Names
import ArmBackend.Proofs.Source.Interpreter

/-!
# Parts of the code of statements

What the code of a compound statement is made of, given that the statement has code.
-/

namespace ArmBackend.Ir

open Source (Loop)

theorem bind_ok {ε α β : Type} {first : Except ε α} {next : α → Except ε β} {result : β}
    (done : (first >>= next) = .ok result) :
    ∃ middle, first = .ok middle ∧ next middle = .ok result := by
  cases first with
  | error error => cases done
  | ok middle => exact ⟨middle, rfl, done⟩

/-- The code of a statement that may be missing. -/
def lowerOptional (place : Place) (draft : Draft) : Option Stmt → Lowering
  | none => .ok ([], draft)
  | some stmt => lowerStmt place draft stmt

/-- The draft at the test of a loop that issues so many labels. -/
def Draft.issueLabels (draft : Draft) (count : Nat) : Draft :=
  draft.withContext { draft.context with labels := draft.context.labels + count }

/-- The draft inside the body of a loop. -/
def Draft.enterLoop (draft : Draft) (labels : LoopLabels) : Draft :=
  draft.withContext (draft.context.enterLoop labels.continueTo labels.breakTo)

/-- The draft behind the body of a loop. -/
def Draft.exitLoop (draft : Draft) : Draft :=
  draft.withContext draft.context.exitLoop

/-- The test of a loop, with the draft behind it. -/
def testCode (place : Place) (draft : Draft) (line : Nat) (labels : LoopLabels) (loop : Loop) :
    List Instr × Draft :=
  lowerExit place draft line labels.breakTo loop.condition

/-- The body and the update of a loop have code. -/
structure LoopCode (place : Place) (draft : Draft) (line : Nat) (labels : LoopLabels)
    (loop : Loop) (bodyCode updateCode : List Instr) (after final : Draft) : Prop where
  body : lowerStmts place ((testCode place draft line labels loop).2.enterLoop labels) loop.body =
    .ok (bodyCode, after)
  update : lowerOptional place after.exitLoop loop.update = .ok (updateCode, final)

variable {condition : Expr} {body : List Stmt}

section

variable {place : Place} {draft final : Draft} {code : List Instr} {position : Position}

theorem lowerStmts_cons {stmt : Stmt} {rest : List Stmt}
    (lowered : lowerStmts place draft (stmt :: rest) = .ok (code, final)) :
    ∃ first others between, lowerStmt place draft stmt = .ok (first, between) ∧
      lowerStmts place between rest = .ok (others, final) ∧ code = first ++ others := by
  rw [lowerStmts] at lowered
  obtain ⟨⟨first, between⟩, head, more⟩ := bind_ok lowered
  obtain ⟨⟨others, last⟩, tail, same⟩ := bind_ok more
  cases same
  exact ⟨first, others, between, head, tail, rfl⟩

/-- Both kinds of targets have the same code. -/
theorem lowerAssign_ok {name : String} {value : Expr}
    (lowered : lowerAssign place draft position name value = .ok (code, final)) :
    ∃ target, (place.resolve draft.bindings name = .direct target ∨
        place.resolve draft.bindings name = .shared target) ∧
      let stored := lowerStore position.line target
        (lowerExpr place draft.bindings draft.context value)
      code = stored.1 ∧ final = draft.withContext stored.2 := by
  rw [lowerAssign] at lowered
  split at lowered
  · next target same => cases lowered; exact ⟨target, .inl same, rfl, rfl⟩
  · next target same => cases lowered; exact ⟨target, .inr same, rfl, rfl⟩
  · cases lowered

theorem lowerStmt_if {thenBranch : List Stmt}
    (lowered : lowerStmt place draft (.ifElse position condition thenBranch none) =
      .ok (code, final)) :
    ∃ thenCode,
      let test := lowerExpr place draft.bindings draft.context condition
      lowerStmts place ((draft.withContext test.context).issueLabels 1) thenBranch =
        .ok (thenCode, final) ∧
      code = test.code ++ (Instr.jumpIf false test.operand (labelName test.context.labels)).atLine
        position.line :: (thenCode ++ [Instr.mark (labelName test.context.labels)]) := by
  rw [lowerStmt] at lowered
  obtain ⟨⟨thenCode, last⟩, inner, same⟩ := bind_ok lowered
  cases same
  exact ⟨thenCode, inner, by simp [labelName]⟩

theorem lowerStmt_ifElse {thenBranch elseBranch : List Stmt}
    (lowered : lowerStmt place draft (.ifElse position condition thenBranch (some elseBranch)) =
      .ok (code, final)) :
    ∃ thenCode elseCode between,
      let test := lowerExpr place draft.bindings draft.context condition
      lowerStmts place ((draft.withContext test.context).issueLabels 2) thenBranch =
        .ok (thenCode, between) ∧
      lowerStmts place between elseBranch = .ok (elseCode, final) ∧
      code = test.code ++ (Instr.jumpIf false test.operand (labelName test.context.labels)).atLine
        position.line :: (thenCode ++
          Instr.jump (labelName (test.context.labels + 1)) ::
          Instr.mark (labelName test.context.labels) ::
          (elseCode ++ [Instr.mark (labelName (test.context.labels + 1))])) := by
  rw [lowerStmt] at lowered
  obtain ⟨⟨thenCode, between⟩, one, more⟩ := bind_ok lowered
  obtain ⟨⟨elseCode, last⟩, two, same⟩ := bind_ok more
  cases same
  exact ⟨thenCode, elseCode, between, one, two, by simp [labelName]⟩

theorem lowerStmt_while
    (lowered : lowerStmt place draft (.whileLoop position condition body) = .ok (code, final)) :
    ∃ bodyCode after,
      let start := labelName draft.context.labels
      let labels : LoopLabels := ⟨start, labelName (draft.context.labels + 1)⟩
      let loop : Loop := ⟨some condition, none, body⟩
      LoopCode place (draft.issueLabels 2) position.line labels loop bodyCode [] after final ∧
      code = Instr.mark start ::
        ((testCode place (draft.issueLabels 2) position.line labels loop).1 ++ (bodyCode ++
          [Instr.jump start, Instr.mark labels.breakTo])) := by
  rw [lowerStmt] at lowered
  obtain ⟨⟨bodyCode, after⟩, inner, same⟩ := bind_ok lowered
  cases same
  exact ⟨bodyCode, after, ⟨inner, rfl⟩, List.append_assoc _ _ _⟩

theorem lowerStmt_forLoop (start update : Option Stmt) (condition : Option Expr)
    (body : List Stmt) :
    lowerStmt place draft (.forLoop position start condition update body) = (do
      let (startCode, begun) ← lowerOptional place draft start
      let head := labelName begun.context.labels
      let labels : LoopLabels :=
        ⟨labelName (begun.context.labels + 1), labelName (begun.context.labels + 2)⟩
      let test := testCode place (begun.issueLabels 3) position.line labels
        ⟨condition, update, body⟩
      let (bodyCode, after) ← lowerStmts place (test.2.enterLoop labels) body
      let (updateCode, final) ← lowerOptional place after.exitLoop update
      .ok (startCode ++ Instr.mark head :: (test.1 ++ (bodyCode ++
        Instr.mark labels.continueTo ::
          (updateCode ++ [Instr.jump head, Instr.mark labels.breakTo]))), final)) := by
  cases start <;> cases update <;> rw [lowerStmt] <;>
    simp [bind, Except.bind, lowerOptional, testCode, Draft.issueLabels, Draft.enterLoop,
      Draft.exitLoop, Context.newLabel, labelName]

theorem lowerStmt_for {start update : Option Stmt} {condition : Option Expr}
    (lowered : lowerStmt place draft (.forLoop position start condition update body) =
      .ok (code, final)) :
    ∃ startCode begun bodyCode updateCode after,
      let head := labelName begun.context.labels
      let labels : LoopLabels :=
        ⟨labelName (begun.context.labels + 1), labelName (begun.context.labels + 2)⟩
      let loop : Loop := ⟨condition, update, body⟩
      lowerOptional place draft start = .ok (startCode, begun) ∧
      LoopCode place (begun.issueLabels 3) position.line labels loop bodyCode updateCode after
        final ∧
      code = startCode ++ Instr.mark head ::
        ((testCode place (begun.issueLabels 3) position.line labels loop).1 ++ (bodyCode ++
          Instr.mark labels.continueTo ::
            (updateCode ++ [Instr.jump head, Instr.mark labels.breakTo]))) := by
  rw [lowerStmt_forLoop] at lowered
  obtain ⟨⟨startCode, begun⟩, one, more⟩ := bind_ok lowered
  obtain ⟨⟨bodyCode, after⟩, two, more⟩ := bind_ok more
  obtain ⟨⟨updateCode, last⟩, three, same⟩ := bind_ok more
  cases same
  exact ⟨startCode, begun, bodyCode, updateCode, after, one, ⟨two, three⟩, rfl⟩

end

end ArmBackend.Ir
