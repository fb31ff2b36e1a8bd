import ArmBackend.CompileError
import ArmBackend.Ir.OfExpr

/-!
# Code of statements

A statement becomes code, and may declare names for the statements behind it.
Two misuses have no code: a jump out of a loop where there is none, and an
assignment to an array as a whole.
-/

namespace ArmBackend.Ir

/-- What statements leave behind besides their code. -/
structure Draft where
  context : Context
  bindings : Bindings := []
  locals : List Operand := []

abbrev Lowering := Except CompileError (List Instr × Draft)

/-- A misuse of a statement, which has no code. -/
inductive Misuse where
  | breakOutsideLoop
  | continueOutsideLoop
  | arrayAssigned (name : String)
deriving DecidableEq

namespace Misuse

def message : Misuse → String
  | breakOutsideLoop => "break outside of loop"
  | continueOutsideLoop => "continue outside of loop"
  | arrayAssigned name => "cannot assign to array '" ++ name ++ "' as a whole"

def toError (misuse : Misuse) (position : Position) : CompileError :=
  .located .codegen position misuse.message

end Misuse

namespace Draft

def declare (draft : Draft) (name : String) (slot : Operand) (storage : Storage) : Draft :=
  { draft with
    bindings := (name, storage) :: draft.bindings
    locals := Function.addLocal draft.locals slot }

def withContext (draft : Draft) (context : Context) : Draft :=
  { draft with context }

end Draft

/-- The first value of a variable; zero if nothing is given. -/
def lowerInitial (place : Place) (draft : Draft) (type : DataType) : Option Expr → Lowered
  | some expr => lowerExpr place draft.bindings draft.context expr
  | none => .value draft.context (.zero type)

/-- Store a value, fitted to the type of its place. -/
def lowerStore (line : Nat) (target : Operand) (value : Lowered) : List Instr × Context :=
  let value := value.coerced line target.type
  (value.code ++ [(Instr.store target value.operand).atLine line], value.context)

/-- Store the first elements of an array, from the given index on. -/
def lowerElements (place : Place) (bindings : Bindings) (line : Nat) (array : String)
    (type : DataType) : (index : Nat) → Context → List Expr → List Instr × Context
  | _, context, [] => ([], context)
  | index, context, expr :: rest =>
    let value := (lowerExpr place bindings context expr).coerced line type
    let (code, context) :=
      lowerElements place bindings line array type (index + 1) value.context rest
    (value.code ++
      (Instr.arrayStore (.element array (.nat index) type) value.operand).atLine line :: code,
      context)

def lowerVarDecl (place : Place) (draft : Draft) (line : Nat) (name : String) (type : DataType)
    (initial : Option Expr) : List Instr × Draft :=
  let slot := Operand.var name type
  let (code, context) := lowerStore line slot (lowerInitial place draft type initial)
  (code, (draft.declare name slot (.direct slot)).withContext context)

def lowerArrayDecl (place : Place) (draft : Draft) (line : Nat) (name : String)
    (type : DataType) (size : Nat) (elements : List Expr) : List Instr × Draft :=
  let slot := Operand.var name type
  let draft := draft.declare name slot (.array name type)
  let (code, context) := lowerElements place draft.bindings line name type 0 draft.context elements
  ((Instr.allocArray slot size).atLine line :: code, draft.withContext context)

def lowerAssign (place : Place) (draft : Draft) (position : Position) (name : String)
    (value : Expr) : Lowering :=
  let value := lowerExpr place draft.bindings draft.context value
  match place.resolve draft.bindings name with
  | .direct target =>
    let (code, context) := lowerStore position.line target value
    .ok (code, draft.withContext context)
  | .shared target =>
    let (code, context) := lowerStore position.line target value
    .ok (code, draft.withContext context)
  | .array _ _ => .error ((Misuse.arrayAssigned name).toError position)

def lowerIndexAssign (place : Place) (draft : Draft) (line : Nat) (array : String)
    (index value : Expr) : List Instr × Draft :=
  let type := (place.resolve draft.bindings array).type
  let index := lowerExpr place draft.bindings draft.context index
  let value := (lowerExpr place draft.bindings index.context value).coerced line type
  (index.code ++ value.code ++
      [(Instr.arrayStore (.element array index.operand type) value.operand).atLine line],
    draft.withContext value.context)

def lowerReturn (place : Place) (draft : Draft) (line : Nat) : Option Expr → List Instr × Draft
  | none => ([(Instr.ret none).atLine line], draft)
  | some expr =>
    let value := (lowerExpr place draft.bindings draft.context expr).coerced line place.result
    (value.code ++ [(Instr.ret (some value.operand)).atLine line],
      draft.withContext value.context)

def lowerPrint (place : Place) (draft : Draft) (line : Nat) (newline : Bool) (value : Expr) :
    List Instr × Draft :=
  let value := lowerExpr place draft.bindings draft.context value
  (value.code ++ [(Instr.print newline value.operand).atLine line],
    draft.withContext value.context)

/-- Leave when the condition is false; without a condition never leave. -/
def lowerExit (place : Place) (draft : Draft) (line : Nat) (target : String) :
    Option Expr → List Instr × Draft
  | none => ([], draft)
  | some condition =>
    let condition := lowerExpr place draft.bindings draft.context condition
    (condition.code ++ [(Instr.jumpIf false condition.operand target).atLine line],
      draft.withContext condition.context)

/-- A jump that a loop around it must have a target for. -/
def lowerLoopJump (draft : Draft) (position : Position) (misuse : Misuse) :
    Option String → Lowering
  | some target => .ok ([(Instr.jump target).atLine position.line], draft)
  | none => .error (misuse.toError position)

mutual

def lowerStmt (place : Place) : Draft → Stmt → Lowering
  | draft, .varDecl position name type initial =>
    .ok (lowerVarDecl place draft position.line name type initial)
  | draft, .arrayDecl position name type size elements =>
    .ok (lowerArrayDecl place draft position.line name type size elements)
  | draft, .assign position name value => lowerAssign place draft position name value
  | draft, .indexAssign position array index value =>
    .ok (lowerIndexAssign place draft position.line array index value)
  | draft, .ifElse position condition thenBranch none => do
    let condition := lowerExpr place draft.bindings draft.context condition
    let (endLabel, context) := condition.context.newLabel
    let (thenCode, draft) ← lowerStmts place (draft.withContext context) thenBranch
    .ok (condition.code ++
      (Instr.jumpIf false condition.operand endLabel).atLine position.line ::
        thenCode ++ [Instr.mark endLabel], draft)
  | draft, .ifElse position condition thenBranch (some elseBranch) => do
    let condition := lowerExpr place draft.bindings draft.context condition
    let (elseLabel, context) := condition.context.newLabel
    let (endLabel, context) := context.newLabel
    let (thenCode, draft) ← lowerStmts place (draft.withContext context) thenBranch
    let (elseCode, draft) ← lowerStmts place draft elseBranch
    .ok (condition.code ++
      (Instr.jumpIf false condition.operand elseLabel).atLine position.line ::
        thenCode ++ [Instr.jump endLabel, Instr.mark elseLabel] ++
        elseCode ++ [Instr.mark endLabel], draft)
  | draft, .whileLoop position condition body => do
    let (startLabel, context) := draft.context.newLabel
    let (endLabel, context) := context.newLabel
    let (exitCode, draft) :=
      lowerExit place (draft.withContext context) position.line endLabel (some condition)
    let inner := draft.withContext (draft.context.enterLoop startLabel endLabel)
    let (bodyCode, draft) ← lowerStmts place inner body
    .ok (Instr.mark startLabel :: exitCode ++ bodyCode ++
      [Instr.jump startLabel, Instr.mark endLabel],
      draft.withContext draft.context.exitLoop)
  | draft, .forLoop position start condition update body => do
    let (startCode, draft) ←
      match start with
      | none => .ok ([], draft)
      | some stmt => lowerStmt place draft stmt
    let (startLabel, context) := draft.context.newLabel
    let (updateLabel, context) := context.newLabel
    let (endLabel, context) := context.newLabel
    let (exitCode, draft) :=
      lowerExit place (draft.withContext context) position.line endLabel condition
    let inner := draft.withContext (draft.context.enterLoop updateLabel endLabel)
    let (bodyCode, draft) ← lowerStmts place inner body
    let outer := draft.withContext draft.context.exitLoop
    let (updateCode, draft) ←
      match update with
      | none => .ok ([], outer)
      | some stmt => lowerStmt place outer stmt
    .ok (startCode ++ Instr.mark startLabel :: exitCode ++ bodyCode ++
      Instr.mark updateLabel :: updateCode ++ [Instr.jump startLabel, Instr.mark endLabel], draft)
  | draft, .block _ body => lowerStmts place draft body
  | draft, .functionDecl _ _ _ _ _ => .ok ([], draft)
  | draft, .ret position value => .ok (lowerReturn place draft position.line value)
  | draft, .print position value => .ok (lowerPrint place draft position.line false value)
  | draft, .println position value => .ok (lowerPrint place draft position.line true value)
  | draft, .expr _ value =>
    let value := lowerExpr place draft.bindings draft.context value
    .ok (value.code, draft.withContext value.context)
  | draft, .breakLoop position =>
    lowerLoopJump draft position .breakOutsideLoop draft.context.breakTarget?
  | draft, .continueLoop position =>
    lowerLoopJump draft position .continueOutsideLoop draft.context.continueTarget?

def lowerStmts (place : Place) : Draft → List Stmt → Lowering
  | draft, [] => .ok ([], draft)
  | draft, stmt :: rest => do
    let (first, draft) ← lowerStmt place draft stmt
    let (others, draft) ← lowerStmts place draft rest
    .ok (first ++ others, draft)

end

/--
The code of a statement at top level.  A declaration of a global fills the storage
of the program and declares nothing in the entry function.
-/
def lowerEntryStmt (place : Place) (draft : Draft) (stmt : Stmt) : Lowering :=
  match stmt with
  | .varDecl position name type initial =>
    if (place.around.global? name).isSome then
      let (code, context) :=
        lowerStore position.line (.global name type) (lowerInitial place draft type initial)
      .ok (code, draft.withContext context)
    else lowerStmt place draft stmt
  | .arrayDecl position name type _ elements =>
    if (place.around.global? name).isSome then
      let (code, context) :=
        lowerElements place draft.bindings position.line name type 0 draft.context elements
      .ok (code, draft.withContext context)
    else lowerStmt place draft stmt
  | _ => lowerStmt place draft stmt

def lowerEntry (place : Place) : Draft → List Stmt → Lowering
  | draft, [] => .ok ([], draft)
  | draft, stmt :: rest => do
    let (first, draft) ← lowerEntryStmt place draft stmt
    let (others, draft) ← lowerEntry place draft rest
    .ok (first ++ others, draft)

end ArmBackend.Ir
