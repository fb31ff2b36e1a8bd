import ArmBackend.Ir.Program
import ArmBackend.Scope
import ArmBackend.Tree.Stmt

/-!
# Storage of names

Where the value of a source name is kept.  Names of the entry code that some
function uses without declaring them become globals of the program; all other
names belong to the function that uses them.
-/

namespace ArmBackend.Ir

inductive Storage where
  /-- a variable or parameter of the function, used in place -/
  | direct (operand : Operand)
  /-- a global, which is loaded and stored -/
  | shared (global : Operand)
  /-- an array of the function or of the program -/
  | array (name : String) (element : DataType)
deriving DecidableEq

namespace Storage

def type : Storage → DataType
  | direct operand => operand.type
  | shared global => global.type
  | array _ element => element

def ofGlobal (global : Global) : Storage :=
  match global.count with
  | some _ => array global.name global.type
  | none => shared (.global global.name global.type)

/-- What the scope trace says about a name; a name without a symbol is an integer variable. -/
def ofSymbol (name : String) : Option Symbol → Storage
  | none => direct (.var name .int)
  | some symbol =>
    match symbol.kind with
    | .parameter _ => direct (.param name symbol.type)
    | .array _ => array name symbol.type
    | _ => direct (.var name symbol.type)

end Storage

/-- The names declared so far in a function, the latest first. -/
abbrev Bindings := List (String × Storage)

/-- A declaration of the entry code; arrays have a count of elements. -/
structure TopLevel where
  name : String
  type : DataType
  count : Option Nat

namespace TopLevel

def ofSymbol? (symbol : Symbol) : Option TopLevel :=
  match symbol.kind with
  | .variable => some ⟨symbol.name, symbol.type, none⟩
  | .array count => some ⟨symbol.name, symbol.type, some count⟩
  | _ => none

def ofStmt? : Stmt → Option TopLevel
  | .varDecl _ name type _ => some ⟨name, type, none⟩
  | .arrayDecl _ name element size _ => some ⟨name, element, some size⟩
  | _ => none

/-- The declarations of the entry code, those of the scope trace first. -/
def all (scopes : ScopeTrace) (tree : Tree) : List TopLevel :=
  scopes.root.symbols.filterMap ofSymbol? ++ tree.entry.filterMap ofStmt?

/-- The last declaration of a name counts. -/
def find? (declarations : List TopLevel) (name : String) : Option TopLevel :=
  declarations.reverse.find? fun declaration => declaration.name == name

def toGlobal (declaration : TopLevel) : Global :=
  ⟨declaration.name, declaration.type, declaration.count⟩

end TopLevel

structure Declared where
  name : String
  parameters : List Parameter
  result : DataType
  body : List Stmt

namespace Declared

def ofStmt? : Stmt → Option Declared
  | .functionDecl _ name parameters result body => some ⟨name, parameters, result, body⟩
  | _ => none

def all (tree : Tree) : List Declared :=
  tree.statements.filterMap ofStmt?

/-- The names that belong to the function itself. -/
def ownNames (scopes : ScopeTrace) (function : Declared) : List String :=
  function.parameters.map Parameter.name ++ Stmt.declaredInList function.body ++
    match scopes.functionScope? function.name with
    | some scope => scope.declared
    | none => []

/-- The names that the function takes from around it, in the order of their uses. -/
def outerNames (scopes : ScopeTrace) (function : Declared) : List String :=
  (Stmt.namesOfList function.body).filter fun name =>
    !(function.ownNames scopes).contains name

end Declared

namespace Global

/-- Add the global of a used name, if it is declared at top level and not there yet. -/
def promote (declarations : List TopLevel) (globals : List Global) (name : String) : List Global :=
  if globals.any fun global => global.name == name then globals
  else
    match TopLevel.find? declarations name with
    | some declaration => globals ++ [declaration.toGlobal]
    | none => globals

/-- The globals of a program, in the order in which its functions first use them. -/
def ofTree (scopes : ScopeTrace) (tree : Tree) : List Global :=
  ((Declared.all tree).flatMap (Declared.outerNames scopes)).foldl
    (promote (TopLevel.all scopes tree)) []

end Global

/-- What is known of a compilation unit while its functions are lowered. -/
structure Surroundings where
  scopes : ScopeTrace
  functions : List Declared
  globals : List Global

namespace Surroundings

def ofTree (scopes : ScopeTrace) (tree : Tree) : Surroundings :=
  ⟨scopes, Declared.all tree, Global.ofTree scopes tree⟩

def global? (around : Surroundings) (name : String) : Option Global :=
  around.globals.find? fun global => global.name == name

/-- The result type of a callee; the last declaration counts, then the scope trace. -/
def resultType (around : Surroundings) (callee : String) : DataType :=
  match around.functions.reverse.find? fun function => function.name == callee with
  | some function => function.result
  | none => (around.scopes.resultType? callee).getD .int

end Surroundings

/-- The function that is being lowered; the entry function has no name in the source. -/
structure Place where
  around : Surroundings
  function : Option String
  result : DataType

namespace Place

def symbol? (place : Place) (name : String) : Option Symbol :=
  match place.function with
  | none => place.around.scopes.resolveEntry name
  | some function => (place.around.scopes.resolveIn function name).map Prod.fst

/-- Declarations of the function come first, then globals, then the scope trace. -/
def resolve (place : Place) (bindings : Bindings) (name : String) : Storage :=
  match bindings.lookup name with
  | some storage => storage
  | none =>
    match place.around.global? name with
    | some global => .ofGlobal global
    | none => .ofSymbol name (place.symbol? name)

end Place

end ArmBackend.Ir
