import ArmBackend.Input
import ArmBackend.Input.Writer
import ArmBackend.Json.Slot

/-!
# Reading inputs

The decoder of compilation inputs.  Each function takes the number of arrays and
objects that may still be opened; what it opens itself it pays for, and what it
skips is free.
-/

namespace ArmBackend

open Json

/-- Arrays and objects may be open to this depth. -/
def Input.depthLimit : Nat := 127

/-- Lines, columns and the like fill 32 bits. -/
def Json.count32? : Document → Option Nat :=
  natBelow? (Nat.pow 2 32)

/-- Sizes and positions in lists fill 64 bits. -/
def Json.count64? : Document → Option Nat :=
  natBelow? (Nat.pow 2 64)

def Position.read? : (levels : Nat) → Document → Option Position
  | _ + 1, json =>
    match slots? ["line", "column"] json with
    | some [line, column] => do
      let line ← line.required count32?
      let column ← column.required count32?
      some ⟨line, column⟩
    | _ => none
  | 0, _ => none

def DataType.read? (levels : Nat) (json : Document) : Option DataType :=
  choice? DataType.ofName? levels json

namespace Expr

mutual

def read? : (levels : Nat) → Document → Option Expr
  | levels + 1, json =>
    match slots? ["kind", "location"] json with
    | some [kind, location] => do
      let position ← location.defaulted .unknown (Position.read? levels)
      kind.required (readKind? levels position)
    | _ => none
  | 0, _ => none

/-- An alternative is an object with one member. -/
def readKind? : (levels : Nat) → Position → Document → Option Expr
  | levels + 1, position, .object [(some tag, content)] => readContent? levels position tag content
  | _, _, _ => none

/-- The content of an alternative. -/
def readContent? : (levels : Nat) → Position → (tag : String) → Document → Option Expr
  | _, position, "IntLiteral", content => (word? content).map (int position)
  | _, position, "FloatLiteral", content => (real? content).map (float position)
  | _, position, "BoolLiteral", content => (bool? content).map (bool position)
  | _, position, "StringLiteral", content => (text? content).map (str position)
  | _, position, "Identifier", content => (text? content).map (name position)
  | levels + 1, position, "Binary", content =>
    match slots? ["op", "left", "right"] content with
    | some [op, left, right] => do
      let op ← op.required (choice? BinaryOp.ofName? levels)
      let left ← left.required (read? levels)
      let right ← right.required (read? levels)
      some (binary position op left right)
    | _ => none
  | levels + 1, position, "Unary", content =>
    match slots? ["op", "operand"] content with
    | some [op, operand] => do
      let op ← op.required (choice? UnaryOp.ofName? levels)
      let operand ← operand.required (read? levels)
      some (unary position op operand)
    | _ => none
  | levels + 1, position, "Call", content =>
    match slots? ["function", "arguments"] content with
    | some [callee, arguments] => do
      let callee ← callee.required text?
      let arguments ← arguments.required (readList? levels)
      some (call position callee arguments)
    | _ => none
  | levels + 1, position, "Index", content =>
    match slots? ["array", "index"] content with
    | some [owner, element] => do
      let owner ← owner.required text?
      let element ← element.required (read? levels)
      some (index position owner element)
    | _ => none
  | levels + 1, position, "Cast", content =>
    match slots? ["target_type", "operand"] content with
    | some [target, operand] => do
      let target ← target.required (DataType.read? levels)
      let operand ← operand.required (read? levels)
      some (cast position target operand)
    | _ => none
  | _, _, _, _ => none

def readList? : (levels : Nat) → Document → Option (List Expr)
  | levels + 1, json => items? (read? levels) json
  | 0, _ => none

end

end Expr

def Parameter.read? : (levels : Nat) → Document → Option Parameter
  | levels + 1, json =>
    match slots? ["name", "data_type"] json with
    | some [name, type] => do
      let name ← name.required text?
      let type ← type.required (DataType.read? levels)
      some ⟨name, type⟩
    | _ => none
  | 0, _ => none

def Parameter.readList? : (levels : Nat) → Document → Option (List Parameter)
  | levels + 1, json => items? (Parameter.read? levels) json
  | 0, _ => none

namespace Stmt

mutual

def read? : (levels : Nat) → Document → Option Stmt
  | levels + 1, json =>
    match slots? ["kind", "location"] json with
    | some [kind, location] => do
      let position ← location.defaulted .unknown (Position.read? levels)
      kind.required (readKind? levels position)
    | _ => none
  | 0, _ => none

/-- A name alone, or an object with one member. -/
def readKind? : (levels : Nat) → Position → Document → Option Stmt
  | _, position, .string (some "Break") => some (breakLoop position)
  | _, position, .string (some "Continue") => some (continueLoop position)
  | levels + 1, position, .object [(some tag, content)] => readContent? levels position tag content
  | _, _, _ => none

/-- The content of an alternative. -/
def readContent? : (levels : Nat) → Position → (tag : String) → Document → Option Stmt
  | _, position, "Break", .null => some (breakLoop position)
  | _, position, "Continue", .null => some (continueLoop position)
  | _, position, "Return", .null => some (ret position none)
  | levels, position, "Return", content =>
    (Expr.read? levels content).map fun value => ret position (some value)
  | levels, position, "Print", content => (Expr.read? levels content).map (print position)
  | levels, position, "Println", content => (Expr.read? levels content).map (println position)
  | levels, position, "Expression", content => (Expr.read? levels content).map (expr position)
  | levels + 1, position, "Block", content => (items? (read? levels) content).map (block position)
  | levels + 1, position, "VarDecl", content =>
    match slots? ["name", "data_type", "initializer"] content with
    | some [name, type, initial] => do
      let name ← name.required text?
      let type ← type.required (DataType.read? levels)
      let initial ← initial.nullable (Expr.read? levels)
      some (varDecl position name type initial)
    | _ => none
  | levels + 1, position, "ArrayDecl", content =>
    match slots? ["name", "element_type", "size", "elements"] content with
    | some [name, element, size, elements] => do
      let name ← name.required text?
      let element ← element.required (DataType.read? levels)
      let size ← size.required count64?
      let elements ← elements.required (Expr.readList? levels)
      some (arrayDecl position name element size elements)
    | _ => none
  | levels + 1, position, "Assign", content =>
    match slots? ["name", "value"] content with
    | some [name, value] => do
      let name ← name.required text?
      let value ← value.required (Expr.read? levels)
      some (assign position name value)
    | _ => none
  | levels + 1, position, "IndexAssign", content =>
    match slots? ["array", "index", "value"] content with
    | some [owner, index, value] => do
      let owner ← owner.required text?
      let index ← index.required (Expr.read? levels)
      let value ← value.required (Expr.read? levels)
      some (indexAssign position owner index value)
    | _ => none
  | levels + 1, position, "If", content =>
    match slots? ["condition", "then_branch", "else_branch"] content with
    | some [condition, thenBranch, elseBranch] => do
      let condition ← condition.required (Expr.read? levels)
      let thenBranch ← thenBranch.required (readList? levels)
      let elseBranch ← elseBranch.nullable (readList? levels)
      some (ifElse position condition thenBranch elseBranch)
    | _ => none
  | levels + 1, position, "While", content =>
    match slots? ["condition", "body"] content with
    | some [condition, body] => do
      let condition ← condition.required (Expr.read? levels)
      let body ← body.required (readList? levels)
      some (whileLoop position condition body)
    | _ => none
  | levels + 1, position, "For", content =>
    match slots? ["init", "condition", "update", "body"] content with
    | some [start, condition, update, body] => do
      let start ← start.nullable (read? levels)
      let condition ← condition.nullable (Expr.read? levels)
      let update ← update.nullable (read? levels)
      let body ← body.required (readList? levels)
      some (forLoop position start condition update body)
    | _ => none
  | levels + 1, position, "FunctionDecl", content =>
    match slots? ["name", "parameters", "return_type", "body"] content with
    | some [name, parameters, result, body] => do
      let name ← name.required text?
      let parameters ← parameters.required (Parameter.readList? levels)
      let result ← result.required (DataType.read? levels)
      let body ← body.required (readList? levels)
      some (functionDecl position name parameters result body)
    | _ => none
  | _, _, _, _ => none

def readList? : (levels : Nat) → Document → Option (List Stmt)
  | levels + 1, json => items? (read? levels) json
  | 0, _ => none

end

end Stmt

def Tree.read? : (levels : Nat) → Document → Option Tree
  | levels + 1, json =>
    match slots? ["statements"] json with
    | some [statements] => (statements.required (Stmt.readList? levels)).map Tree.mk
    | _ => none
  | 0, _ => none

/-- The one field of an alternative's record. -/
def Json.onlyCount? (name : String) : (levels : Nat) → Document → Option Nat
  | _ + 1, json =>
    match slots? [name] json with
    | some [count] => count.required count64?
    | _ => none
  | 0, _ => none

def SymbolKind.read? : (levels : Nat) → Document → Option SymbolKind
  | _, .string (some "Variable") => some .variable
  | _ + 1, .object [(some "Variable", .null)] => some .variable
  | levels + 1, .object [(some "Parameter", content)] =>
    (onlyCount? "position" levels content).map .parameter
  | levels + 1, .object [(some "Array", content)] =>
    (onlyCount? "element_count" levels content).map .array
  | levels + 1, .object [(some "Function", content)] =>
    (onlyCount? "parameter_count" levels content).map .function
  | _, _ => none

def Symbol.read? : (levels : Nat) → Document → Option Symbol
  | levels + 1, json =>
    match slots? ["name", "data_type", "kind", "line"] json with
    | some [name, type, kind, line] => do
      let name ← name.required text?
      let type ← type.required (DataType.read? levels)
      let kind ← kind.required (SymbolKind.read? levels)
      let line ← line.defaulted 0 count32?
      some ⟨name, type, kind, line⟩
    | _ => none
  | 0, _ => none

def Symbol.readList? : (levels : Nat) → Document → Option (List Symbol)
  | levels + 1, json => items? (Symbol.read? levels) json
  | 0, _ => none

namespace Scope

mutual

def read? : (levels : Nat) → Document → Option Scope
  | levels + 1, json =>
    match slots? ["kind", "name", "symbols", "children"] json with
    | some [kind, name, symbols, children] => do
      let kind ← kind.required (choice? ScopeKind.ofName? levels)
      let name ← name.defaulted "" text?
      let symbols ← symbols.defaulted [] (Symbol.readList? levels)
      let children ← children.defaulted [] (readList? levels)
      some (mk kind name symbols children)
    | _ => none
  | 0, _ => none

def readList? : (levels : Nat) → Document → Option (List Scope)
  | levels + 1, json => items? (read? levels) json
  | 0, _ => none

end

end Scope

def ScopeTrace.read? : (levels : Nat) → Document → Option ScopeTrace
  | levels + 1, json =>
    match slots? ["root"] json with
    | some [root] => (root.required (Scope.read? levels)).map ScopeTrace.mk
    | _ => none
  | 0, _ => none

def Finding.read? : (levels : Nat) → Document → Option Finding
  | levels + 1, json =>
    match slots? ["phase", "message", "location", "is_warning"] json with
    | some [stage, message, location, isWarning] => do
      let stage ← stage.required (choice? FindingStage.ofName? levels)
      let message ← message.required text?
      let position ← location.defaulted .unknown (Position.read? levels)
      let isWarning ← isWarning.defaulted false bool?
      some ⟨stage, message, position, isWarning⟩
    | _ => none
  | 0, _ => none

def Finding.readList? : (levels : Nat) → Document → Option (List Finding)
  | levels + 1, json => items? (Finding.read? levels) json
  | 0, _ => none

def Input.read? : (levels : Nat) → Document → Option Input
  | levels + 1, json =>
    match slots? ["tree", "scopes", "diagnostics"] json with
    | some [tree, scopes, findings] => do
      let tree ← tree.required (Tree.read? levels)
      let scopes ← scopes.defaulted .empty (ScopeTrace.read? levels)
      let findings ← findings.defaulted [] (Finding.readList? levels)
      some ⟨tree, scopes, findings⟩
    | _ => none
  | 0, _ => none

def Input.parse? (library : Json.Library) (text : String) : Option Input :=
  (library.parse? text).bind (Input.read? depthLimit)

def ScopeTrace.parse? (library : Json.Library) (text : String) : Option ScopeTrace :=
  (library.parse? text).bind (ScopeTrace.read? Input.depthLimit)

/-- Reading what is written for the input gives an input with the same document. -/
def Input.survives (library : Json.Library) (input : Input) : Bool :=
  match Input.parse? library (input.write library) with
  | some again => again.write library == input.write library
  | none => false

end ArmBackend
