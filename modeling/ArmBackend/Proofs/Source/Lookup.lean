import ArmBackend.Scope
import Mathlib.Data.List.MinMax

/-!
# Which declaration is looked up

A search below a scope goes down each branch before it turns to the next one.  It finds the
first declaration in the order of the source, which is the outermost one only where no other
lies further out.
-/

namespace ArmBackend

open List

namespace Scope

mutual

/-- The declarations of a name in a scope and below it, in the order of the source, each with its
depth. -/
def declarations (name : String) (depth : Nat) : Scope → List (Nat × Symbol)
  | mk _ _ symbols children =>
    (symbols.filter (·.name == name)).map (depth, ·) ++
      declarationsInList name (depth + 1) children

def declarationsInList (name : String) (depth : Nat) : List Scope → List (Nat × Symbol)
  | [] => []
  | scope :: rest => scope.declarations name depth ++ declarationsInList name depth rest

end

mutual

theorem lookup_eq_head? (name : String) (depth : Nat) (scope : Scope) :
    scope.lookup name = (scope.declarations name depth).head?.map Prod.snd := by
  obtain ⟨kind, label, symbols, children⟩ := scope
  have below := lookupInList_eq_head? name (depth + 1) children
  rw [lookup, lookupHere, Scope.symbols, ← head?_filter, declarations, head?_append, head?_map]
  cases (symbols.filter (·.name == name)).head? with
  | none => exact below
  | some symbol => rfl

theorem lookupInList_eq_head? (name : String) (depth : Nat) (scopes : List Scope) :
    lookupInList name scopes = (declarationsInList name depth scopes).head?.map Prod.snd := by
  cases scopes with
  | nil => rfl
  | cons scope rest =>
    have here := lookup_eq_head? name depth scope
    have later := lookupInList_eq_head? name depth rest
    rw [lookupInList, here, later, declarationsInList, head?_append]
    cases (scope.declarations name depth).head? <;> rfl

end

mutual

theorem declarations_eq_nil (name : String) (depth : Nat) (scope : Scope) :
    scope.declarations name depth = [] ↔ name ∉ scope.declared := by
  obtain ⟨kind, label, symbols, children⟩ := scope
  have below := declarationsInList_eq_nil name (depth + 1) children
  simp [declarations, declared, below]

theorem declarationsInList_eq_nil (name : String) (depth : Nat) (scopes : List Scope) :
    declarationsInList name depth scopes = [] ↔ name ∉ declaredInList scopes := by
  cases scopes with
  | nil => simp [declarationsInList, declaredInList]
  | cons scope rest =>
    have here := declarations_eq_nil name depth scope
    have later := declarationsInList_eq_nil name depth rest
    simp [declarationsInList, declaredInList, here, later]

end

/-- The first entry is the least one, and the first of these, if none of the others is less. -/
theorem argmin_eq_head? {α : Type} [DecidableEq α] {measure : α → Nat} {entries : List α}
    (least : ∀ first ∈ entries.head?, ∀ entry ∈ entries, measure first ≤ measure entry) :
    entries.argmin measure = entries.head? := by
  cases entries with
  | nil => rfl
  | cons first rest =>
    refine argmin_eq_some_iff.mpr ⟨mem_cons_self .., least first rfl, fun other member le => ?_⟩
    rw [idxOf_cons_self]
    exact Nat.zero_le _

/-- A name is found below a scope if it is declared there.  What is found is the first declaration in
the order of the source.  If no declaration lies further out than that one, the outermost is found,
and the first of these. -/
theorem lookup_finds_first (name : String) (scope : Scope) :
    (scope.lookup name = none ↔ name ∉ scope.declared) ∧
      scope.lookup name = (scope.declarations name 0).head?.map Prod.snd ∧
      ((∀ first ∈ (scope.declarations name 0).head?, ∀ other ∈ scope.declarations name 0,
          first.1 ≤ other.1) →
        scope.lookup name = ((scope.declarations name 0).argmin Prod.fst).map Prod.snd) := by
  have found := lookup_eq_head? name 0 scope
  refine ⟨?_, found, fun least => by rw [found, argmin_eq_head? least]⟩
  rw [found, Option.map_eq_none_iff, head?_eq_none_iff, declarations_eq_nil]

/-- A block has a block with an integer in it, and the next block has a float of the same name. -/
def unevenBlocks : Scope :=
  .mk .global "global" []
    [.mk .block "" [] [.mk .block "" [⟨"x", .int, .variable, 2⟩] []],
      .mk .block "" [⟨"x", .float, .variable, 5⟩] []]

/-- The float is declared further out, but the integer is found. -/
theorem unevenBlocks_finds_inner :
    (unevenBlocks.declarations "x" 0).argmin Prod.fst = some (1, ⟨"x", .float, .variable, 5⟩) ∧
      unevenBlocks.lookup "x" = some ⟨"x", .int, .variable, 2⟩ := by
  decide

end Scope

end ArmBackend
