import ArmBackend.DataType

/-!
# Scopes

The trace of name analysis: a tree of scopes that nest as they do in the source,
each with the symbols it declares.
-/

namespace ArmBackend

inductive ScopeKind where
  | global
  | function
  | block
deriving DecidableEq

namespace ScopeKind

def all : List ScopeKind :=
  [global, function, block]

def name : ScopeKind → String
  | global => "Global"
  | function => "Function"
  | block => "Block"

def ofName? (text : String) : Option ScopeKind :=
  all.find? fun kind => kind.name == text

end ScopeKind

inductive SymbolKind where
  | variable
  | parameter (position : Nat)
  | array (count : Nat)
  | function (parameters : Nat)
deriving DecidableEq

/-- A declared name; the type of a function is that of its result. -/
structure Symbol where
  name : String
  type : DataType
  kind : SymbolKind
  line : Nat := 0
deriving DecidableEq

namespace Symbol

/-- Variables and arrays have storage of their own. -/
def isStorage (symbol : Symbol) : Bool :=
  match symbol.kind with
  | .variable => true
  | .array _ => true
  | _ => false

def isFunction (symbol : Symbol) : Bool :=
  match symbol.kind with
  | .function _ => true
  | _ => false

end Symbol

inductive Scope where
  | mk (kind : ScopeKind) (name : String) (symbols : List Symbol) (children : List Scope)

namespace Scope

def kind : Scope → ScopeKind
  | mk kind _ _ _ => kind

def name : Scope → String
  | mk _ name _ _ => name

def symbols : Scope → List Symbol
  | mk _ _ symbols _ => symbols

def children : Scope → List Scope
  | mk _ _ _ children => children

def lookupHere (scope : Scope) (name : String) : Option Symbol :=
  scope.symbols.find? fun symbol => symbol.name == name

mutual

/-- The symbol of the name here, or else in the first child that finds it below. -/
def lookup (name : String) : Scope → Option Symbol
  | mk kind label symbols children =>
    match (mk kind label symbols children).lookupHere name with
    | some symbol => some symbol
    | none => lookupInList name children

def lookupInList (name : String) : List Scope → Option Symbol
  | [] => none
  | scope :: rest =>
    match scope.lookup name with
    | some symbol => some symbol
    | none => lookupInList name rest

end

mutual

/-- As `lookup`, but never inside the scope of a function below this one. -/
def lookupOutsideFunctions (name : String) : Scope → Option Symbol
  | mk kind label symbols children =>
    match (mk kind label symbols children).lookupHere name with
    | some symbol => some symbol
    | none => lookupOutsideFunctionsInList name children

def lookupOutsideFunctionsInList (name : String) : List Scope → Option Symbol
  | [] => none
  | scope :: rest =>
    if scope.kind = .function then lookupOutsideFunctionsInList name rest
    else
      match scope.lookupOutsideFunctions name with
      | some symbol => some symbol
      | none => lookupOutsideFunctionsInList name rest

end

mutual

def declared : Scope → List String
  | mk _ _ symbols children => symbols.map Symbol.name ++ declaredInList children

def declaredInList : List Scope → List String
  | [] => []
  | scope :: rest => scope.declared ++ declaredInList rest

end

end Scope

/-- The scopes of a compilation unit, by their outermost one. -/
structure ScopeTrace where
  root : Scope

namespace ScopeTrace

def ofGlobal (symbols : List Symbol) (children : List Scope) : ScopeTrace :=
  ⟨.mk .global "global" symbols children⟩

def empty : ScopeTrace :=
  ofGlobal [] []

def functionScope? (trace : ScopeTrace) (function : String) : Option Scope :=
  trace.root.children.find? fun scope => decide (scope.kind = .function) && scope.name == function

def resolveEntry (trace : ScopeTrace) (name : String) : Option Symbol :=
  trace.root.lookupOutsideFunctions name

/--
The symbol that a name has in a function, and whether the function declares it
itself; otherwise it is a global symbol.
-/
def resolveIn (trace : ScopeTrace) (function name : String) : Option (Symbol × Bool) :=
  match (trace.functionScope? function).bind (Scope.lookup name) with
  | some symbol => some (symbol, true)
  | none => (trace.root.lookupHere name).map fun symbol => (symbol, false)

def resultType? (trace : ScopeTrace) (function : String) : Option DataType :=
  match trace.root.lookupHere function with
  | some symbol => if symbol.isFunction then some symbol.type else none
  | none => none

end ScopeTrace

end ArmBackend
