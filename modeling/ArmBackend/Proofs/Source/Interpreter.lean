import ArmBackend.Proofs.Source.Value

/-!
# The source language

A direct interpreter of trees.  Expressions and statements are run by recursion on
the tree; calls and rounds of loops, which the tree does not bound, are left to
handlers.  The handlers of some fuel allow that many calls and rounds inside each
other, and end in a timeout where these do not suffice.
-/

namespace ArmBackend.Source

open Ir (Declared TopLevel)

/-- How statements end. -/
inductive Flow where
  | next
  | broke
  | continued
  /-- with the pattern of a value of the result type -/
  | returned (value : Option Word)
deriving DecidableEq

/-- Go on where statements have not left. -/
def Flow.andThen (next : Run Flow) : Flow → Run Flow
  | .next => next
  | flow => return flow

/-- What a loop repeats; without a condition it goes on. -/
structure Loop where
  condition : Option Expr
  update : Option Stmt
  body : List Stmt

structure Handlers where
  call : String → List Value → Run (Option Value)
  /-- a loop in a function with the given result -/
  loop : DataType → Loop → Run Flow

section

variable (code : Code) (handlers : Handlers)

mutual

/-- The value of an expression; the parts are evaluated from left to right. -/
def eval : Expr → Run Value
  | .int _ value => pure ⟨.int, value⟩
  | .float _ value => pure (.ofReal value)
  | .bool _ value => pure (.ofBool value)
  | .str _ literal => pure ⟨.str, code.address literal⟩
  | .name _ name => code.read name
  | .binary _ op left right => do
    let left ← eval left
    let right ← eval right
    return left.binary op right
  | .unary _ op operand => do
    let operand ← eval operand
    return operand.unary op
  | .call _ callee arguments => do
    let arguments ← evalList arguments
    match ← handlers.call callee arguments with
    | some value => return value
    | none => Run.fail (.noResult callee)
  | .index _ array index => do
    let index ← eval index
    code.readElement array index
  | .cast _ target operand => do
    let operand ← eval operand
    return operand.cast target

def evalList : List Expr → Run (List Value)
  | [] => return []
  | expr :: rest => do
    let first ← eval expr
    let others ← evalList rest
    return first :: others

end

/-- An expression whose value is not used, so that a call need not have one. -/
def evalUnused : Expr → Run PUnit
  | .call _ callee arguments => do
    let arguments ← evalList code handlers arguments
    let _ ← handlers.call callee arguments
  | expr => do
    let _ ← eval code handlers expr

/-- The first value of a variable; zero if nothing is given. -/
def evalInitial (type : DataType) : Option Expr → Run Value
  | none => Run.fit type (.zero type)
  | some expr => eval code handlers expr >>= Run.fit type

/-- Fill an array from an index on. -/
def fill (array : String) : (index : Nat) → List Expr → Run PUnit
  | _, [] => return ⟨⟩
  | index, expr :: rest => do
    let value ← eval code handlers expr
    code.writeElement array ⟨.int, BitVec.ofNat 64 index⟩ value
    fill array (index + 1) rest

/-- A loop without a condition goes on. -/
def test : Option Expr → Run Bool
  | none => return true
  | some condition => do
    let value ← eval code handlers condition
    return value.isTrue

variable (result : DataType)

mutual

/-- Run a statement of a function with the given result. -/
def exec : Stmt → Run Flow
  | .varDecl _ name type initial => do
    let value ← evalInitial code handlers type initial
    Run.declare name (.scalar value)
    return .next
  | .arrayDecl _ name type size elements => do
    Run.declare name (.array type size fun _ => none)
    fill code handlers name 0 elements
    return .next
  | .assign _ name value => do
    let value ← eval code handlers value
    code.write name value
    return .next
  | .indexAssign _ array index value => do
    let index ← eval code handlers index
    let value ← eval code handlers value
    code.writeElement array index value
    return .next
  | .ifElse _ condition thenBranch elseBranch => do
    let condition ← eval code handlers condition
    if condition.isTrue then Run.inScope (execList thenBranch)
    else
      match elseBranch with
      | none => return .next
      | some body => Run.inScope (execList body)
  | .whileLoop _ condition body => handlers.loop result ⟨some condition, none, body⟩
  | .forLoop _ start condition update body =>
    Run.inScope ((match start with
      | none => pure .next
      | some stmt => exec stmt) >>= Flow.andThen (handlers.loop result ⟨condition, update, body⟩))
  | .block _ body => Run.inScope (execList body)
  | .functionDecl _ _ _ _ _ => return .next
  | .ret _ none => return .returned none
  | .ret _ (some expr) => do
    let value ← eval code handlers expr
    let value ← Run.fit result value
    return .returned (some value.bits)
  | .print _ value => do
    let value ← eval code handlers value
    Run.print false value
    return .next
  | .println _ value => do
    let value ← eval code handlers value
    Run.print true value
    return .next
  | .expr _ value => do
    evalUnused code handlers value
    return .next
  | .breakLoop _ => return .broke
  | .continueLoop _ => return .continued

/-- Run statements in order, up to one that leaves. -/
def execList : List Stmt → Run Flow
  | [] => return .next
  | stmt :: rest => exec stmt >>= Flow.andThen (execList rest)

end

/-- The update of a loop has a scope of its own. -/
def execUpdate : Option Stmt → Run Flow
  | none => return .next
  | some stmt => Run.inScope (exec code handlers result stmt)

/-- What follows the body of a loop: the update and the next round. -/
def repeatLoop (loop : Loop) : Flow → Run Flow
  | .broke => return .next
  | .returned value => return .returned value
  | _ => execUpdate code handlers result loop.update >>= Flow.andThen (handlers.loop result loop)

/-- One round of a loop. -/
def round (loop : Loop) : Run Flow := do
  let goesOn ← test code handlers loop.condition
  if goesOn then do
    let flow ← Run.inScope (execList code handlers result loop.body)
    repeatLoop code handlers result loop flow
  else return .next

end

/-- What a call gives back. -/
def Flow.result : Flow → Run (Option Word)
  | .next => return none
  | .returned value => return value
  | _ => Run.fail .strayJump

/-- The parameters of a call. -/
def frame (parameters : List Parameter) (arguments : List Value) : Scopes :=
  (List.zipWith (fun parameter value => (parameter.name, .scalar value)) parameters
    arguments).reverse

/-- Call a function; arguments have the types of their parameters, and no type has no value. -/
def invoke (code : Code) (handlers : Handlers) (callee : String) (arguments : List Value) :
    Run (Option Value) :=
  match code.function? callee with
  | none => Run.fail (.unknownFunction callee)
  | some function =>
    if function.parameters.map Parameter.type = arguments.map Value.type then do
      let flow ← Run.inFrame (frame function.parameters arguments)
        (execList code handlers function.result function.body)
      let value ← flow.result
      return if function.result.isVoid then none else value.map (Value.mk function.result)
    else Run.fail .wrongType

/-- Handlers that allow so many calls and rounds inside each other. -/
def handlers (code : Code) : (fuel : Nat) → Handlers
  | 0 => ⟨fun _ _ => Run.outOfTime, fun _ _ => Run.outOfTime⟩
  | fuel + 1 => ⟨invoke code (handlers code fuel), round code (handlers code fuel)⟩

section

variable (code : Code) (handlers : Handlers)

/-- Run a statement at top level; the declaration of a shared name fills its memory. -/
def execEntryStmt : Stmt → Run Flow
  | .varDecl position name type initial =>
    if (code.shared? name).isSome then do
      let value ← evalInitial code handlers type initial
      Code.setShared name value.bits
      return .next
    else exec code handlers .int (.varDecl position name type initial)
  | .arrayDecl position name type size elements =>
    if (code.shared? name).isSome then do
      fill code handlers name 0 elements
      return .next
    else exec code handlers .int (.arrayDecl position name type size elements)
  | stmt => exec code handlers .int stmt

/-- Run the statements at top level. -/
def execEntry : List Stmt → Run Flow
  | [] => return .next
  | stmt :: rest => execEntryStmt code handlers stmt >>= Flow.andThen (execEntry rest)

end

/-- Nothing is declared or printed, and the shared memory holds zeros. -/
def World.start : World := ⟨[], .zero, []⟩

/-- Run a tree with the given fuel. -/
def run (address : String → Word) (tree : Tree) (fuel : Nat) : Outcome (Option Word) :=
  let code := Code.ofTree address tree
  (do
    let flow ← execEntry code (handlers code fuel) tree.entry
    flow.result) World.start

/-- What has been printed in the end, or until time was up. -/
def Outcome.output {α : Type} : Outcome α → List Printed
  | .done _ world => world.output
  | .fault _ => []
  | .timeout output => output

def Outcome.isFault {α : Type} : Outcome α → Bool
  | .fault _ => true
  | _ => false

end ArmBackend.Source
