import ArmBackend.Proofs.Lowering.Misuse

/-!
# Well-formed trees have programs

Lowering refuses jumps out of loops that stand in none, and assignments to arrays.
A well-formed tree has neither, so that it has a program.
-/

namespace ArmBackend.Ir

open List Option

open Source (Code)

/-- Names outside of `arrays` do not stand for arrays. -/
def Scalars (place : Place) (arrays : List String) (bindings : Bindings) : Prop :=
  ∀ name, name ∉ arrays → ∀ array type, place.resolve bindings name ≠ .array array type

section

variable {place : Place} {arrays : List String} {bindings : Bindings}

section

variable (scalars : Scalars place arrays bindings)
include scalars

/-- Declarations behind which only the names of arrays stand for arrays. -/
theorem Scalars.behind (simples : List Stmt)
    (within : simples.flatMap (fun stmt => stmt.arrayName?.toList) ⊆ arrays) :
    Scalars place arrays
      ((simples.flatMap fun stmt => stmt.binding?.toList).reverse ++ bindings) := by
  intro name outside array type same
  rw [Place.resolve, lookup_append] at same
  cases found : (simples.flatMap fun stmt => stmt.binding?.toList).reverse.lookup name with
  | none =>
    rw [found] at same
    exact scalars name outside array type same
  | some storage =>
    rw [found] at same
    cases same
    obtain ⟨stmt, member, binds⟩ := mem_flatMap.mp (mem_reverse.mp (mem_of_lookup found))
    cases stmt with
    | arrayDecl position name type size elements =>
      cases mem_singleton.mp binds
      exact outside (within (mem_flatMap.mpr ⟨_, member, mem_singleton_self _⟩))
    | varDecl position name type initial => cases mem_singleton.mp binds
    | _ => cases binds

theorem Scalars.bind {stmt : Stmt} (within : stmt.arrays ⊆ arrays) :
    Scalars place arrays (stmt.bind bindings) := by
  rw [Stmt.arrays, Stmt.gather_eq] at within
  rw [Stmt.bind, Stmt.gather_eq]
  exact scalars.behind _ within

theorem Scalars.bindList {stmts : List Stmt} (within : Stmt.arraysInList stmts ⊆ arrays) :
    Scalars place arrays (Stmt.bindList bindings stmts) := by
  rw [Stmt.arraysInList, Stmt.gatherList_eq] at within
  rw [Stmt.bindList, Stmt.gatherList_eq]
  exact scalars.behind _ within

theorem Scalars.bindOption {stmt : Option Stmt}
    (within : Stmt.gatherOption (fun stmt => stmt.arrayName?.toList) stmt ⊆ arrays) :
    Scalars place arrays (Stmt.bindOption bindings stmt) := by
  cases stmt with
  | none => exact scalars
  | some stmt => exact scalars.bind within

end

mutual

theorem misuses_eq_nil {inLoop : Bool} {bindings : Bindings}
    (scalars : Scalars place arrays bindings) : (stmt : Stmt) →
    (placed : stmt.jumpsInLoops inLoop = true) → (within : stmt.arrays ⊆ arrays) →
    (assigned : ∀ name ∈ stmt.assigns, name ∉ arrays) → stmt.misuses place inLoop bindings = []
  | .assign position name value, _, _, assigned => by
    have scalar := scalars name (assigned name (mem_singleton.mpr rfl))
    rw [Stmt.misuses]
    split
    · next array type same => exact absurd same (scalar array type)
    · rfl
  | .ifElse position condition thenBranch none, placed, within, assigned => by
    simp only [Stmt.jumpsInLoops, Bool.and_true] at placed
    simp only [Stmt.arrays, Stmt.assigns, Stmt.gather, append_nil] at within assigned
    rw [Stmt.misuses, append_nil]
    exact misusesInList_eq_nil scalars thenBranch placed within assigned
  | .ifElse position condition thenBranch (some elseBranch), placed, within, assigned => by
    simp only [Stmt.jumpsInLoops, Bool.and_eq_true] at placed
    simp only [Stmt.arrays, Stmt.assigns, Stmt.gather, append_subset,
      forall_mem_append] at within assigned
    rw [Stmt.misuses, misusesInList_eq_nil scalars thenBranch placed.1 within.1 assigned.1]
    exact misusesInList_eq_nil (scalars.bindList within.1) elseBranch placed.2 within.2 assigned.2
  | .whileLoop _ _ body, placed, within, assigned | .block _ body, placed, within, assigned => by
    rw [Stmt.misuses]
    exact misusesInList_eq_nil scalars body placed within assigned
  | .forLoop position start condition update body, placed, within, assigned => by
    simp only [Stmt.jumpsInLoops, Bool.and_eq_true] at placed
    simp only [Stmt.arrays, Stmt.assigns, Stmt.gather, append_subset,
      forall_mem_append] at within assigned
    have begun := scalars.bindOption within.1
    rw [Stmt.misuses, misusesInOption_eq_nil scalars start placed.1 within.1 assigned.1,
      misusesInList_eq_nil begun body placed.2.1 within.2.1 assigned.2.1]
    exact misusesInOption_eq_nil (begun.bindList within.2.1) update placed.2.2 within.2.2
      assigned.2.2
  | .breakLoop _, placed, _, _ | .continueLoop _, placed, _, _ => if_pos placed
  | .varDecl .., _, _, _ | .arrayDecl .., _, _, _ | .indexAssign .., _, _, _
  | .functionDecl .., _, _, _ | .ret .., _, _, _ | .print .., _, _, _ | .println .., _, _, _
  | .expr .., _, _, _ => rfl

theorem misusesInOption_eq_nil {inLoop : Bool} {bindings : Bindings}
    (scalars : Scalars place arrays bindings) : (stmt : Option Stmt) →
    (placed : Stmt.jumpsInLoopsInOption inLoop stmt = true) →
    (within : Stmt.gatherOption (fun stmt => stmt.arrayName?.toList) stmt ⊆ arrays) →
    (assigned : ∀ name ∈ Stmt.gatherOption (fun stmt => stmt.assignedName?.toList) stmt,
      name ∉ arrays) → Stmt.misusesInOption place inLoop bindings stmt = []
  | none, _, _, _ => rfl
  | some stmt, placed, within, assigned => misuses_eq_nil scalars stmt placed within assigned

theorem misusesInList_eq_nil {inLoop : Bool} {bindings : Bindings}
    (scalars : Scalars place arrays bindings) : (stmts : List Stmt) →
    (placed : Stmt.jumpsInLoopsInList inLoop stmts = true) →
    (within : Stmt.arraysInList stmts ⊆ arrays) →
    (assigned : ∀ name ∈ Stmt.assignsInList stmts, name ∉ arrays) →
    Stmt.misusesInList place inLoop bindings stmts = []
  | [], _, _, _ => rfl
  | stmt :: rest, placed, within, assigned => by
    simp only [Stmt.jumpsInLoopsInList, Bool.and_eq_true] at placed
    simp only [Stmt.arraysInList, Stmt.assignsInList, Stmt.gatherList, append_subset,
      forall_mem_append] at within assigned
    rw [Stmt.misusesInList, misuses_eq_nil scalars stmt placed.1 within.1 assigned.1]
    exact misusesInList_eq_nil (scalars.bind within.1) rest placed.2 within.2 assigned.2

end

theorem entryMisuses_eq_nil (scalars : Scalars place arrays bindings) (stmts : List Stmt)
    (placed : Stmt.jumpsInLoopsInList false stmts = true)
    (within : Stmt.arraysInList stmts ⊆ arrays)
    (assigned : ∀ name ∈ Stmt.assignsInList stmts, name ∉ arrays) :
    Stmt.entryMisuses place bindings stmts = [] := by
  induction stmts generalizing bindings with
  | nil => rfl
  | cons stmt rest ih =>
    simp only [Stmt.jumpsInLoopsInList, Bool.and_eq_true] at placed
    simp only [Stmt.arraysInList, Stmt.assignsInList, Stmt.gatherList, append_subset,
      forall_mem_append] at within assigned
    rw [Stmt.entryMisuses, misuses_eq_nil scalars stmt placed.1 within.1 assigned.1]
    refine ih ?_ placed.2 within.2 assigned.2
    rw [Stmt.entryBind]
    split
    · exact scalars
    · exact scalars.bind within.1

end

theorem mem_arraysInList {stmts : List Stmt} {stmt : Stmt} (member : stmt ∈ stmts) :
    stmt.arrays ⊆ Stmt.arraysInList stmts := by
  induction stmts with
  | nil => cases member
  | cons first rest ih =>
    cases member with
    | head => exact subset_append_left _ _
    | tail _ inside => exact List.Subset.trans (ih inside) (subset_append_right _ _)

theorem topArrays_subset (tree : Tree) : tree.topArrays ⊆ Stmt.arraysInList tree.entry := by
  intro name member
  obtain ⟨declaration, inside, rfl⟩ := mem_map.mp member
  obtain ⟨declared, counted⟩ := mem_filter.mp inside
  obtain ⟨stmt, present, same⟩ := mem_filterMap.mp declared
  refine mem_arraysInList present ?_
  cases stmt with
  | varDecl position name type initial =>
    cases same
    cases counted
  | arrayDecl position name type size elements =>
    cases same
    exact mem_singleton.mpr rfl
  | _ => cases same

section

variable {scopes : ScopeTrace} {tree : Tree}

theorem mem_topArrays {declaration : TopLevel} (member : declaration ∈ tree.topLevel) {size : Nat}
    (counted : declaration.count = some size) : declaration.name ∈ tree.topArrays :=
  mem_map_of_mem (mem_filter.mpr ⟨member, by rw [counted]; rfl⟩)

variable {name array : String} {type : DataType}

theorem isArray_of_ofSymbol {symbol : Option Symbol}
    (same : Storage.ofSymbol name symbol = .array array type) :
    ∃ found, symbol = some found ∧ found.kind.isArray = true := by
  cases symbol with
  | none => cases same
  | some symbol =>
    refine ⟨symbol, rfl, ?_⟩
    rw [Storage.ofSymbol] at same
    split at same
    · cases same
    · next kind => rw [kind]; rfl
    · cases same

variable (agrees : scopes.Agrees tree)
include agrees

theorem mem_topArrays_of_symbol {symbol : Symbol}
    (found : scopes.root.lookupHere name = some symbol) (isArray : symbol.kind.isArray = true) :
    name ∈ tree.topArrays := by
  obtain rfl : symbol.name = name := by simpa using find?_some found
  have member := mem_of_find?_eq_some found
  cases kind : symbol.kind with
  | array size =>
    have declared := agrees.topLevel symbol member ⟨symbol.name, symbol.type, some size⟩
      (by rw [TopLevel.ofSymbol?, kind])
    exact mem_topArrays declared rfl
  | _ =>
    rw [kind] at isArray
    cases isArray

variable (well : tree.WellFormed)
include well

theorem mem_topArrays_of_global {global : Global}
    (found : (Surroundings.ofTree scopes tree).global? name = some global)
    (same : Storage.ofGlobal global = .array array type) : name ∈ tree.topArrays := by
  rw [global?_ofTree well agrees fun _ => 0] at found
  obtain ⟨declaration, shared, rfl⟩ := map_eq_some_iff.mp found
  obtain ⟨member, rfl⟩ := mem_topLevel_of_shared? shared
  cases counted : declaration.count with
  | none => simp [Storage.ofGlobal, TopLevel.toGlobal, counted] at same
  | some size => exact mem_topArrays member counted

theorem scalars_function {declared : Declared} (member : declared ∈ Declared.all tree) :
    Scalars (declared.place (Surroundings.ofTree scopes tree))
      (Stmt.arraysInList declared.body ++ tree.topArrays)
      (parameterBindings declared.parameters) := by
  intro name outside array type same
  rw [mem_append, not_or] at outside
  unfold Place.resolve at same
  split at same
  · next storage found =>
      subst same
      have bound := mem_reverse.mp (mem_of_lookup found)
      obtain ⟨parameter, _, equal⟩ := mem_map.mp bound
      cases equal
  · split at same
    · next global found => exact outside.2 (mem_topArrays_of_global agrees well found same)
    · obtain ⟨symbol, found, isArray⟩ := isArray_of_ofSymbol same
      obtain ⟨⟨resolved, own⟩, hit, rfl⟩ := map_eq_some_iff.mp found
      unfold ScopeTrace.resolveIn at hit
      split at hit
      · next inner =>
          cases hit
          obtain ⟨scope, known, seen⟩ := bind_eq_some_iff.mp inner
          exact outside.1 (agrees.arrays declared member scope known name _ seen isArray)
      · obtain ⟨symbol, seen, same⟩ := map_eq_some_iff.mp hit
        cases same
        exact outside.2 (mem_topArrays_of_symbol agrees seen isArray)

theorem scalars_entry :
    Scalars (entryPlace (Surroundings.ofTree scopes tree)) (Stmt.arraysInList tree.entry) [] := by
  intro name outside array type same
  unfold Place.resolve at same
  split at same
  · next storage found => cases found
  · split at same
    · next global found =>
        exact outside (topArrays_subset tree (mem_topArrays_of_global agrees well found same))
    · obtain ⟨symbol, found, isArray⟩ := isArray_of_ofSymbol same
      exact outside (agrees.entryArrays name symbol found isArray)

/-- A well-formed tree has a program. -/
theorem ofTree_ok (suppress : Bool) :
    ∃ program context, Program.ofTree scopes suppress tree = .ok (program, context) := by
  have entry := entryMisuses_eq_nil (scalars_entry agrees well) tree.entry well.jumps
    (List.Subset.refl _) well.assigns
  have functions : (Declared.all tree).flatMap (fun declared => Stmt.misusesInList
      (declared.place (Surroundings.ofTree scopes tree)) false
      (parameterBindings declared.parameters) declared.body) = [] := by
    refine flatMap_eq_nil_iff.mpr fun declared member => ?_
    have sound := well.functions declared member
    exact misusesInList_eq_nil (scalars_function agrees well member) declared.body sound.jumps
      (subset_append_left _ _) sound.assigns
  have none : tree.misuses scopes = [] := by
    rw [Tree.misuses, entry, functions]
    rfl
  have fails := ofTree_failsAt scopes suppress tree
  rw [none] at fails
  obtain ⟨⟨program, context⟩, lowered⟩ := fails
  exact ⟨program, context, lowered⟩

end

end ArmBackend.Ir
