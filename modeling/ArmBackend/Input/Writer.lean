import ArmBackend.Input
import ArmBackend.Json.Library

/-!
# Writing inputs

The document of a compilation input.  Every field is written, in a fixed order;
an absent value is null, and an alternative without content is its name.
-/

namespace ArmBackend

def Json.tagged (tag : String) (content : Document) : Document :=
  .ofMembers [(tag, content)]

def Json.ofOption {α : Type} (encode : α → Document) : Option α → Document
  | none => .null
  | some value => encode value

def Position.toJson (position : Position) : Document :=
  .ofMembers [("line", .ofNat position.line), ("column", .ofNat position.column)]

def DataType.toJson (type : DataType) : Document :=
  .ofText type.name

/-- A node of the tree: what it is and where it stands. -/
def Json.node (kind : Document) (position : Position) : Document :=
  .ofMembers [("kind", kind), ("location", position.toJson)]

namespace Expr

mutual

def toJson : Expr → Document
  | int position value => .node (.tagged "IntLiteral" (.ofWord value)) position
  | float position value => .node (.tagged "FloatLiteral" (.ofReal value)) position
  | bool position value => .node (.tagged "BoolLiteral" (.bool value)) position
  | str position value => .node (.tagged "StringLiteral" (.ofText value)) position
  | name position text => .node (.tagged "Identifier" (.ofText text)) position
  | binary position op left right =>
    .node (.tagged "Binary" (.ofMembers
      [("op", .ofText op.name), ("left", left.toJson), ("right", right.toJson)])) position
  | unary position op operand =>
    .node (.tagged "Unary" (.ofMembers
      [("op", .ofText op.name), ("operand", operand.toJson)])) position
  | call position callee arguments =>
    .node (.tagged "Call" (.ofMembers
      [("function", .ofText callee), ("arguments", .array (listToJson arguments))])) position
  | index position array element =>
    .node (.tagged "Index" (.ofMembers
      [("array", .ofText array), ("index", element.toJson)])) position
  | cast position target operand =>
    .node (.tagged "Cast" (.ofMembers
      [("target_type", target.toJson), ("operand", operand.toJson)])) position

def listToJson : List Expr → List Document
  | [] => []
  | expr :: rest => expr.toJson :: listToJson rest

end

end Expr

def Parameter.toJson (parameter : Parameter) : Document :=
  .ofMembers [("name", .ofText parameter.name), ("data_type", parameter.type.toJson)]

namespace Stmt

mutual

def toJson : Stmt → Document
  | varDecl position name type initial =>
    .node (.tagged "VarDecl" (.ofMembers
      [("name", .ofText name), ("data_type", type.toJson),
        ("initializer", .ofOption Expr.toJson initial)])) position
  | arrayDecl position name element size elements =>
    .node (.tagged "ArrayDecl" (.ofMembers
      [("name", .ofText name), ("element_type", element.toJson), ("size", .ofNat size),
        ("elements", .array (Expr.listToJson elements))])) position
  | assign position name value =>
    .node (.tagged "Assign" (.ofMembers
      [("name", .ofText name), ("value", value.toJson)])) position
  | indexAssign position array index value =>
    .node (.tagged "IndexAssign" (.ofMembers
      [("array", .ofText array), ("index", index.toJson), ("value", value.toJson)])) position
  | ifElse position condition thenBranch elseBranch =>
    .node (.tagged "If" (.ofMembers
      [("condition", condition.toJson), ("then_branch", .array (listToJson thenBranch)),
        ("else_branch",
          match elseBranch with
          | none => .null
          | some body => .array (listToJson body))])) position
  | whileLoop position condition body =>
    .node (.tagged "While" (.ofMembers
      [("condition", condition.toJson), ("body", .array (listToJson body))])) position
  | forLoop position start condition update body =>
    .node (.tagged "For" (.ofMembers
      [("init",
          match start with
          | none => .null
          | some stmt => stmt.toJson),
        ("condition", .ofOption Expr.toJson condition),
        ("update",
          match update with
          | none => .null
          | some stmt => stmt.toJson),
        ("body", .array (listToJson body))])) position
  | block position body => .node (.tagged "Block" (.array (listToJson body))) position
  | functionDecl position name parameters result body =>
    .node (.tagged "FunctionDecl" (.ofMembers
      [("name", .ofText name), ("parameters", .array (parameters.map Parameter.toJson)),
        ("return_type", result.toJson), ("body", .array (listToJson body))])) position
  | ret position value => .node (.tagged "Return" (.ofOption Expr.toJson value)) position
  | print position value => .node (.tagged "Print" value.toJson) position
  | println position value => .node (.tagged "Println" value.toJson) position
  | expr position value => .node (.tagged "Expression" value.toJson) position
  | breakLoop position => .node (.ofText "Break") position
  | continueLoop position => .node (.ofText "Continue") position

def listToJson : List Stmt → List Document
  | [] => []
  | stmt :: rest => stmt.toJson :: listToJson rest

end

end Stmt

def SymbolKind.toJson : SymbolKind → Document
  | .variable => .ofText "Variable"
  | .parameter position => .tagged "Parameter" (.ofMembers [("position", .ofNat position)])
  | .array count => .tagged "Array" (.ofMembers [("element_count", .ofNat count)])
  | .function parameters =>
    .tagged "Function" (.ofMembers [("parameter_count", .ofNat parameters)])

def Symbol.toJson (symbol : Symbol) : Document :=
  .ofMembers
    [("name", .ofText symbol.name), ("data_type", symbol.type.toJson),
      ("kind", symbol.kind.toJson), ("line", .ofNat symbol.line)]

namespace Scope

mutual

def toJson : Scope → Document
  | mk kind name symbols children =>
    .ofMembers
      [("kind", .ofText kind.name), ("name", .ofText name),
        ("symbols", .array (symbols.map Symbol.toJson)),
        ("children", .array (listToJson children))]

def listToJson : List Scope → List Document
  | [] => []
  | scope :: rest => scope.toJson :: listToJson rest

end

end Scope

def ScopeTrace.toJson (trace : ScopeTrace) : Document :=
  .ofMembers [("root", trace.root.toJson)]

def Finding.toJson (finding : Finding) : Document :=
  .ofMembers
    [("phase", .ofText finding.stage.name), ("message", .ofText finding.message),
      ("location", finding.position.toJson), ("is_warning", .bool finding.isWarning)]

def Tree.toJson (tree : Tree) : Document :=
  .ofMembers [("statements", .array (Stmt.listToJson tree.statements))]

def Input.toJson (input : Input) : Document :=
  .ofMembers
    [("tree", input.tree.toJson), ("scopes", input.scopes.toJson),
      ("diagnostics", .array (input.findings.map Finding.toJson))]

def Input.write (library : Json.Library) (input : Input) : String :=
  library.print input.toJson

end ArmBackend
