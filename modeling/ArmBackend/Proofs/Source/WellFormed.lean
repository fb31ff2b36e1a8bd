import ArmBackend.Ir.OfTree
import ArmBackend.Proofs.Source.Static
import Mathlib

/-!
# Well-formed trees

What name analysis promises of a tree: names are declared once, functions do not
declare names of the top level again, jumps out of loops stand in loops, and no array
is assigned as a whole.  A scope trace agrees with a tree if it knows no other names
and no other arrays.
-/

namespace ArmBackend

open Ir (Declared TopLevel entryName)

namespace Tree

/-- The declarations that stand at top level themselves. -/
def topLevel (tree : Tree) : List TopLevel :=
  tree.entry.filterMap TopLevel.ofStmt?

/-- The names of the arrays among them. -/
def topArrays (tree : Tree) : List String :=
  (tree.topLevel.filter fun declaration => declaration.count.isSome).map TopLevel.name

end Tree

namespace Ir.Declared

/-- The parameters of a function and the names that it declares at any depth. -/
def declares (function : Declared) : List String :=
  function.parameters.map Parameter.name ++ Stmt.declaresInList function.body

/-- What is asked of a function of the tree. -/
structure WellFormed (tree : Tree) (function : Declared) : Prop where
  distinct : function.declares.Nodup
  apart : ∀ name ∈ function.declares, name ∉ tree.topLevel.map TopLevel.name
  jumps : Stmt.jumpsInLoopsInList false function.body = true
  assigns : ∀ name ∈ Stmt.assignsInList function.body,
    name ∉ Stmt.arraysInList function.body ++ tree.topArrays
  /-- the position of an argument is a word -/
  count : function.parameters.length ≤ 2 ^ 63

end Ir.Declared

/-- Names, jumps and assignments of the tree are in order. -/
structure Tree.WellFormed (tree : Tree) : Prop where
  functionNames : ((Declared.all tree).map Declared.name).Nodup
  notEntry : entryName ∉ (Declared.all tree).map Declared.name
  functions : ∀ function ∈ Declared.all tree, function.WellFormed tree
  distinct : (Stmt.declaresInList tree.entry).Nodup
  jumps : Stmt.jumpsInLoopsInList false tree.entry = true
  assigns : ∀ name ∈ Stmt.assignsInList tree.entry, name ∉ Stmt.arraysInList tree.entry

def SymbolKind.isArray : SymbolKind → Bool
  | array _ => true
  | _ => false

/-- The scope trace knows no other names and no other arrays than the tree. -/
structure ScopeTrace.Agrees (scopes : ScopeTrace) (tree : Tree) : Prop where
  topLevel : ∀ symbol ∈ scopes.root.symbols, ∀ declaration,
    TopLevel.ofSymbol? symbol = some declaration → declaration ∈ tree.topLevel
  entryArrays : ∀ name symbol, scopes.resolveEntry name = some symbol →
    symbol.kind.isArray = true → name ∈ Stmt.arraysInList tree.entry
  names : ∀ function ∈ Declared.all tree, ∀ scope,
    scopes.functionScope? function.name = some scope → scope.declared ⊆ function.declares
  arrays : ∀ function ∈ Declared.all tree, ∀ scope,
    scopes.functionScope? function.name = some scope → ∀ name symbol,
    scope.lookup name = some symbol → symbol.kind.isArray = true →
    name ∈ Stmt.arraysInList function.body

/-- The empty trace agrees with every tree. -/
theorem ScopeTrace.empty_agrees (tree : Tree) : ScopeTrace.empty.Agrees tree where
  topLevel := by
    intro symbol member
    cases member
  entryArrays := by
    intro name symbol found
    cases found
  names := by
    intro function _ scope found
    cases found
  arrays := by
    intro function _ scope found
    cases found

end ArmBackend
