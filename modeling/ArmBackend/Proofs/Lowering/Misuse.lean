import ArmBackend.Proofs.Lowering.Targets

/-!
# Trees without a program

Two kinds of statements have no code: a jump out of a loop that stands in no loop body of its
function, and an assignment to a name that stands for an array.  A tree has a program exactly
if there is no such statement in the code that is lowered, and the error otherwise names the
first of them in the order of the code.
-/

namespace ArmBackend

open List Option

open Ir

namespace Stmt

variable (place : Place)

mutual

/-- The misuses in a statement in the order of its code.  The start and the update of a loop are
around it, and a nested function has no code here. -/
def misuses (inLoop : Bool) (bindings : Bindings) : Stmt → List (Position × Misuse)
  | assign position name _ =>
    match place.resolve bindings name with
    | .array _ _ => [(position, .arrayAssigned name)]
    | _ => []
  | ifElse _ _ thenBranch elseBranch =>
    misusesInList inLoop bindings thenBranch ++
      match elseBranch with
      | none => []
      | some body => misusesInList inLoop (bindList bindings thenBranch) body
  | whileLoop _ _ body => misusesInList true bindings body
  | forLoop _ start _ update body =>
    misusesInOption inLoop bindings start ++
      (misusesInList true (bindOption bindings start) body ++
        misusesInOption inLoop (bindList (bindOption bindings start) body) update)
  | block _ body => misusesInList inLoop bindings body
  | breakLoop position => if inLoop then [] else [(position, .breakOutsideLoop)]
  | continueLoop position => if inLoop then [] else [(position, .continueOutsideLoop)]
  | _ => []

def misusesInList (inLoop : Bool) (bindings : Bindings) : List Stmt → List (Position × Misuse)
  | [] => []
  | stmt :: rest =>
    stmt.misuses inLoop bindings ++ misusesInList inLoop (stmt.bind bindings) rest

/-- The misuses in a statement that may be missing. -/
def misusesInOption (inLoop : Bool) (bindings : Bindings) :
    Option Stmt → List (Position × Misuse)
  | none => []
  | some stmt => stmt.misuses inLoop bindings

end

/-- The misuses in the statements at top level. -/
def entryMisuses (bindings : Bindings) : List Stmt → List (Position × Misuse)
  | [] => []
  | stmt :: rest =>
    stmt.misuses place false bindings ++ entryMisuses (stmt.entryBind place bindings) rest

end Stmt

/-- The misuses in a tree: in the statements at top level, then in the functions in order. -/
def Tree.misuses (scopes : ScopeTrace) (tree : Tree) : List (Position × Misuse) :=
  let around := Surroundings.ofTree scopes tree
  Stmt.entryMisuses (entryPlace around) [] tree.entry ++
    (Declared.all tree).flatMap fun declared =>
      Stmt.misusesInList (declared.place around) false (parameterBindings declared.parameters)
        declared.body

namespace Ir

/-- There is no result if there is a misuse, and the error is that of the first one. -/
def FailsAt {α : Type} (misuses : List (Position × Misuse)) (result : Except CompileError α) :
    Prop :=
  match misuses with
  | [] => ∃ value, result = .ok value
  | (position, misuse) :: _ => result = .error (misuse.toError position)

namespace FailsAt

variable {α β : Type} {first second : List (Position × Misuse)} {result : Except CompileError α}
  {next : α → Except CompileError β}

theorem ok (value : α) : FailsAt [] (.ok value) :=
  ⟨value, rfl⟩

theorem bind (one : FailsAt first result)
    (two : ∀ value, result = .ok value → FailsAt second (next value)) :
    FailsAt (first ++ second) (result >>= next) := by
  cases first with
  | nil =>
    obtain ⟨value, rfl⟩ := one
    exact two value rfl
  | cons misuse rest =>
    cases one
    rfl

theorem followed (one : FailsAt first result) (two : ∀ value, FailsAt [] (next value)) :
    FailsAt first (result >>= next) := by
  rw [← append_nil first]
  exact one.bind fun value _ => two value

theorem error_iff (fails : FailsAt first result) (error : CompileError) :
    result = .error error ↔ ∃ misuse ∈ first.head?, error = misuse.2.toError misuse.1 := by
  cases first with
  | nil =>
    obtain ⟨value, rfl⟩ := fails
    simp
  | cons misuse rest =>
    cases fails
    simp [eq_comm]

end FailsAt

/-- There is a loop around the code that comes next. -/
def Draft.inLoop (draft : Draft) : Bool :=
  !draft.context.loops.isEmpty

theorem Draft.Grows.inLoop_eq {draft final : Draft} {declared : Bindings} {code : List Instr}
    (grows : draft.Grows declared code final) : final.inLoop = draft.inLoop := by
  rw [Draft.inLoop, grows.loops, Draft.inLoop]

theorem lowerLoopJump_failsAt (draft : Draft) (position : Position) (misuse : Misuse)
    (label : LoopLabels → String) : FailsAt (if draft.inLoop then [] else [(position, misuse)])
      (lowerLoopJump draft position misuse (draft.context.loops.head?.map label)) := by
  rw [Draft.inLoop]
  cases draft.context.loops with
  | nil => rfl
  | cons labels rest => exact .ok _

section

variable (place : Place)

mutual

theorem lowerStmt_failsAt (draft : Draft) : (stmt : Stmt) →
    FailsAt (stmt.misuses place draft.inLoop draft.bindings) (lowerStmt place draft stmt)
  | .assign position name value => by
    rw [Stmt.misuses, lowerStmt, lowerAssign]
    cases place.resolve draft.bindings name with
    | direct target | shared target => exact .ok _
    | array array type => rfl
  | .ifElse position condition thenBranch none => by
    let test := lowerExpr place draft.bindings draft.context condition
    have same : (draft.withContext test.context).inLoop = draft.inLoop :=
      (Draft.Lowers.of_tame (lowerExpr_tame ..)).inLoop_eq
    rw [Stmt.misuses, append_nil, lowerStmt, ← same]
    exact (lowerStmts_failsAt ((draft.withContext test.context).issueLabels 1) thenBranch).followed
      fun _ => .ok _
  | .ifElse position condition thenBranch (some elseBranch) => by
    let test := lowerExpr place draft.bindings draft.context condition
    have same : (draft.withContext test.context).inLoop = draft.inLoop :=
      (Draft.Lowers.of_tame (lowerExpr_tame ..)).inLoop_eq
    rw [Stmt.misuses, lowerStmt, ← same]
    refine (lowerStmts_failsAt ((draft.withContext test.context).issueLabels 2) thenBranch).bind
      fun (thenCode, between) one => ?_
    have lowers := lowerStmts_lowers place _ _ _ thenBranch one
    have other := lowerStmts_failsAt between elseBranch
    rw [lowers.inLoop_eq, lowers.bindings] at other
    exact other.followed fun _ => .ok _
  | .whileLoop position condition body => by
    let labels : LoopLabels :=
      ⟨labelName draft.context.labels, labelName (draft.context.labels + 1)⟩
    let test := testCode place (draft.issueLabels 2) position.line labels ⟨some condition, none, body⟩
    rw [Stmt.misuses, lowerStmt]
    exact (lowerStmts_failsAt (test.2.enterLoop labels) body).followed fun _ => .ok _
  | .forLoop position start condition update body => by
    rw [Stmt.misuses, lowerStmt_forLoop]
    refine (lowerOptional_failsAt draft start).bind fun (startCode, begun) one => ?_
    let labels : LoopLabels :=
      ⟨labelName (begun.context.labels + 1), labelName (begun.context.labels + 2)⟩
    let loop : Source.Loop := ⟨condition, update, body⟩
    let inner := (testCode place (begun.issueLabels 3) position.line labels loop).2.enterLoop labels
    have first := lowerOption_lowers place _ _ _ start one
    have test :=
      (lowerExit_grows place (begun.issueLabels 3) position.line labels.breakTo condition).1
    have entered : inner.bindings = Stmt.bindOption draft.bindings start := by
      rw [Stmt.bindOption_eq, ← first.bindings]
      exact test.bindings
    rw [← entered]
    refine (lowerStmts_failsAt inner body).bind fun (bodyCode, after) two => ?_
    have grows := (lowerStmts_lowers place _ _ _ body two).toGrows.inLoop
    have behind := lowerOptional_failsAt after.exitLoop update
    have around : after.exitLoop.inLoop = draft.inLoop :=
      grows.inLoop_eq.trans (test.inLoop_eq.trans first.inLoop_eq)
    rw [around, grows.bindings] at behind
    exact behind.followed fun _ => .ok _
  | .block _ body => by
    rw [Stmt.misuses, lowerStmt]
    exact lowerStmts_failsAt draft body
  | .breakLoop position => by
    rw [Stmt.misuses, lowerStmt]
    exact lowerLoopJump_failsAt draft position .breakOutsideLoop LoopLabels.breakTo
  | .continueLoop position => by
    rw [Stmt.misuses, lowerStmt]
    exact lowerLoopJump_failsAt draft position .continueOutsideLoop LoopLabels.continueTo
  | .varDecl .. | .arrayDecl .. | .indexAssign .. | .functionDecl .. | .ret .. | .print ..
  | .println .. | .expr .. => by
    exact FailsAt.ok _

theorem lowerOptional_failsAt (draft : Draft) : (stmt : Option Stmt) →
    FailsAt (Stmt.misusesInOption place draft.inLoop draft.bindings stmt)
      (lowerOptional place draft stmt)
  | none => .ok _
  | some stmt => lowerStmt_failsAt draft stmt

theorem lowerStmts_failsAt (draft : Draft) : (stmts : List Stmt) →
    FailsAt (Stmt.misusesInList place draft.inLoop draft.bindings stmts)
      (lowerStmts place draft stmts)
  | [] => .ok _
  | stmt :: rest => by
    rw [Stmt.misusesInList, lowerStmts]
    refine (lowerStmt_failsAt draft stmt).bind fun (first, between) one => ?_
    have lowers := lowerStmt_lowers place _ _ _ stmt one
    have others := lowerStmts_failsAt between rest
    rw [lowers.inLoop_eq, lowers.bindings] at others
    exact others.followed fun _ => .ok _

end

theorem lowerEntry_failsAt (draft : Draft) (outside : draft.inLoop = false) (stmts : List Stmt) :
    FailsAt (Stmt.entryMisuses place draft.bindings stmts) (lowerEntry place draft stmts) := by
  induction stmts generalizing draft with
  | nil => exact .ok _
  | cons stmt rest ih =>
    rw [Stmt.entryMisuses, lowerEntry]
    refine .bind ?_ ?_
    · cases shared : stmt.sharesName place.isShared with
      | false =>
        rw [lowerEntryStmt_of_not shared, ← outside]
        exact lowerStmt_failsAt place draft stmt
      | true =>
        cases stmt with
        | varDecl position name type initial =>
          rw [lowerEntryStmt_varDecl shared]
          exact FailsAt.ok _
        | arrayDecl position name type size elements =>
          rw [lowerEntryStmt_arrayDecl shared]
          exact FailsAt.ok _
        | _ => cases shared
    · rintro ⟨first, between⟩ one
      have lowers := lowerEntryStmt_lowers one
      have behind : between.bindings = stmt.entryBind place draft.bindings := by
        rw [lowers.bindings, Stmt.entryBind, ← Place.sharesName_eq]
        split <;> rfl
      rw [← behind]
      exact (ih between (lowers.inLoop_eq.trans outside)).followed fun _ => .ok _

end

theorem ofDeclaredList_failsAt (around : Surroundings) (context : Context)
    (outside : context.loops = []) (declarations : List Declared) :
    FailsAt (declarations.flatMap fun declared => Stmt.misusesInList (declared.place around) false
        (parameterBindings declared.parameters) declared.body)
      (Function.ofDeclaredList around context declarations) := by
  induction declarations generalizing context with
  | nil => exact .ok _
  | cons declared rest ih =>
    have none : (declared.draft context).inLoop = false := by
      rw [Draft.inLoop, Declared.draft, outside]
      rfl
    have body := lowerStmts_failsAt (declared.place around) (declared.draft context) declared.body
    rw [none] at body
    rw [flatMap_cons, Function.ofDeclaredList]
    refine .bind ?_ ?_
    · rw [Function.ofDeclared]
      simp only [List.map_map]
      exact body.followed fun _ => .ok _
    · rintro ⟨function, between⟩ one
      have loosely : False → (Origin.declared declared).isTyped around = true := False.elim
      obtain ⟨final, derives, rfl⟩ := ofDeclared_derives one loosely
      exact (ih final.context (derives.labelled outside).loops).followed fun _ => .ok _

theorem ofTree_failsAt (scopes : ScopeTrace) (suppress : Bool) (tree : Tree) :
    FailsAt (tree.misuses scopes) (Program.ofTree scopes suppress tree) := by
  rw [Tree.misuses, Program.ofTree]
  refine .bind ?_ ?_
  · rw [Function.ofEntry]
    exact (lowerEntry_failsAt _ ⟨.empty, [], []⟩ rfl tree.entry).followed fun _ => .ok _
  · rintro ⟨entry, between⟩ one
    obtain ⟨final, derives, rfl⟩ := ofEntry_derives one False.elim False.elim
    exact (ofDeclaredList_failsAt _ _ (derives.labelled rfl).loops _).followed fun _ => .ok _

end Ir

/-- Lowering fails exactly if a jump stands in no loop or an array is assigned, and the error is
that of the first misuse in the order of the code. -/
theorem Ir.ofTree_eq_error_iff (scopes : ScopeTrace) (suppress : Bool) (tree : Tree)
    (error : CompileError) : Program.ofTree scopes suppress tree = .error error ↔
      ∃ misuse ∈ (tree.misuses scopes).head?,
        error = .located .codegen misuse.1 misuse.2.message :=
  (ofTree_failsAt scopes suppress tree).error_iff error

end ArmBackend
