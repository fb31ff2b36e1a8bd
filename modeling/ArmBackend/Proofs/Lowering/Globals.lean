import ArmBackend.Proofs.Source.Value
import ArmBackend.Proofs.Source.WellFormed

/-!
# The names that are shared

The globals of a program are the declarations at top level that some function uses,
which are the names that the source language shares.
-/

namespace ArmBackend.Ir

open List Option

open Source (Code)

variable {name : String} {declaration : TopLevel} {α : Type}

theorem find?_reverse_of_nodup (key : α → String) {entries : List α}
    (distinct : (entries.map key).Nodup) (name : String) :
    (entries.reverse.find? fun entry => key entry == name) =
      entries.find? fun entry => key entry == name := by
  induction entries with
  | nil => rfl
  | cons entry rest ih =>
    obtain ⟨outside, others⟩ := nodup_cons.mp distinct
    rw [reverse_cons, find?_append, ih others, find?_cons, find?_cons]
    cases same : key entry == name with
    | false =>
      rw [find?_nil, or_none]
    | true =>
      have absent : (rest.find? fun entry => key entry == name) = none := by
        refine find?_eq_none.mpr fun other member equal => outside ?_
        rw [eq_of_beq same, ← eq_of_beq equal]
        exact mem_map_of_mem member
      rw [absent]
      rfl

theorem find?_of_mem (key : α → String) {entries : List α} (distinct : (entries.map key).Nodup)
    {entry : α} (member : entry ∈ entries) :
    (entries.find? fun other => key other == key entry) = some entry := by
  induction entries with
  | nil => cases member
  | cons first rest ih =>
    obtain ⟨outside, others⟩ := nodup_cons.mp distinct
    rw [find?_cons]
    cases member with
    | head => rw [beq_self_eq_true]
    | tail _ inside =>
      have differ : (key first == key entry) = false := by
        refine beq_eq_false_iff_ne.mpr fun same => outside ?_
        rw [same]
        exact mem_map_of_mem inside
      rw [differ]
      exact ih others inside

theorem name_of_find? {declarations : List TopLevel}
    (found : TopLevel.find? declarations name = some declaration) : declaration.name = name := by
  simpa using find?_some found

theorem find?_promote (declarations : List TopLevel) (globals : List Global) (used name : String) :
    ((Global.promote declarations globals used).find? fun global => global.name == name) =
      (globals.find? fun global => global.name == name).or
        (if name = used then (TopLevel.find? declarations name).map TopLevel.toGlobal else none) := by
  unfold Global.promote
  split
  · next present =>
      by_cases same : name = used
      · subst same
        obtain ⟨global, member, equal⟩ := List.any_eq_true.mp present
        have found : (globals.find? fun global => global.name == name).isSome = true :=
          find?_isSome.mpr ⟨global, member, equal⟩
        rw [or_of_isSome found]
      · rw [if_neg same, or_none]
  · split
    · next declaration found =>
        rw [find?_append, find?_singleton]
        have named : declaration.toGlobal.name = used := name_of_find? found
        congr 1
        by_cases same : name = used
        · subst same
          rw [if_pos rfl, found, if_pos (beq_iff_eq.mpr named)]
          rfl
        · rw [if_neg same, if_neg]
          exact fun equal => same ((eq_of_beq equal).symm.trans named)
    · next missing =>
        by_cases same : name = used
        · subst same
          rw [missing, map_none, ite_self, or_none]
        · rw [if_neg same, or_none]

/-- The promotion of several names. -/
theorem find?_promoteAll (declarations : List TopLevel) (used : List String)
    (globals : List Global) (name : String) :
    ((used.foldl (Global.promote declarations) globals).find? fun global => global.name == name) =
      (globals.find? fun global => global.name == name).or
        (if name ∈ used then (TopLevel.find? declarations name).map TopLevel.toGlobal else none) := by
  induction used generalizing globals with
  | nil => rw [if_neg not_mem_nil, or_none, foldl_nil]
  | cons first rest ih =>
    rw [foldl_cons, ih, find?_promote, Option.or_assoc]
    congr 1
    by_cases same : name = first
    · subst same
      rw [if_pos rfl, if_pos (mem_cons_self ..)]
      split
      · exact Option.or_self
      · exact or_none
    · simp [same]

theorem topLevel_sublist (stmts : List Stmt) :
    ((stmts.filterMap TopLevel.ofStmt?).map TopLevel.name).Sublist
      (Stmt.declaresInList stmts) := by
  induction stmts with
  | nil => exact List.Sublist.slnil
  | cons stmt rest ih =>
    have skip := ih.trans (sublist_append_right stmt.declares (Stmt.declaresInList rest))
    cases stmt with
    | varDecl position name type initial | arrayDecl position name type size elements =>
      exact ih.cons_cons name
    | _ => exact skip

section

variable {scopes : ScopeTrace} {tree : Tree}

/-- What is shared is declared at top level. -/
theorem mem_topLevel_of_shared? {address : String → Word}
    (found : (Code.ofTree address tree).shared? name = some declaration) :
    declaration ∈ tree.topLevel ∧ declaration.name = name := by
  have member := mem_of_find?_eq_some found
  exact ⟨(mem_filter.mp member).1, by simpa using find?_some found⟩

variable (well : tree.WellFormed)
include well

theorem topLevel_nodup : (tree.topLevel.map TopLevel.name).Nodup :=
  well.distinct.sublist (topLevel_sublist tree.entry)

theorem shared?_of_mem (address : String → Word) (member : declaration ∈ tree.topLevel) :
    (Code.ofTree address tree).shared? declaration.name =
      if (Declared.all tree).any fun function => Code.uses function declaration.name then
        some declaration else none := by
  let used (declaration : TopLevel) : Bool :=
    (Declared.all tree).any fun function => Code.uses function declaration.name
  change ((tree.topLevel.filter used).find? fun other => other.name == declaration.name) = _
  split
  · next isUsed =>
      have distinct := (topLevel_nodup well).sublist
        ((filter_sublist (p := used) (l := tree.topLevel)).map TopLevel.name)
      exact find?_of_mem TopLevel.name distinct (mem_filter.mpr ⟨member, isUsed⟩)
  · next unused =>
      refine find?_eq_none.mpr fun other inside equal => unused ?_
      rw [← eq_of_beq equal]
      exact (mem_filter.mp inside).2

variable (agrees : scopes.Agrees tree)
include agrees

theorem find?_topLevel (name : String) :
    TopLevel.find? (TopLevel.all scopes tree) name =
      tree.topLevel.find? fun declaration => declaration.name == name := by
  rw [TopLevel.find?, TopLevel.all, reverse_append, find?_append]
  change (tree.topLevel.reverse.find? _).or _ = _
  rw [find?_reverse_of_nodup TopLevel.name (topLevel_nodup well)]
  cases found : tree.topLevel.find? fun declaration => declaration.name == name with
  | some declaration => rfl
  | none =>
    refine find?_eq_none.mpr fun declaration member equal => ?_
    obtain ⟨symbol, inside, same⟩ := mem_filterMap.mp (mem_reverse.mp member)
    have declared := agrees.topLevel symbol inside declaration same
    exact find?_eq_none.mp found declaration declared equal

theorem mem_outerNames {function : Declared} (member : function ∈ Declared.all tree)
    (declared : name ∈ tree.topLevel.map TopLevel.name) :
    name ∈ function.outerNames scopes ↔ Code.uses function name = true := by
  have foreign : name ∉ function.declares := fun own =>
    (well.functions function member).apart name own declared
  have outside : name ∉ function.ownNames scopes := by
    intro own
    cases mem_append.mp own with
    | inl first =>
      refine foreign (append_subset.mpr ⟨?_, ?_⟩ first)
      · exact subset_append_left _ _
      · exact List.Subset.trans (Stmt.declaredInList_subset function.body)
          (subset_append_right _ _)
    | inr inner =>
      cases found : scopes.functionScope? function.name with
      | none =>
        rw [found] at inner
        cases inner
      | some scope =>
        rw [found] at inner
        exact foreign (agrees.names function member scope found inner)
  simp [Declared.outerNames, Code.uses, outside]

theorem global?_ofTree (address : String → Word) (name : String) :
    (Surroundings.ofTree scopes tree).global? name =
      ((Code.ofTree address tree).shared? name).map TopLevel.toGlobal := by
  change ((((Declared.all tree).flatMap (Declared.outerNames scopes)).foldl
    (Global.promote (TopLevel.all scopes tree)) []).find? fun global => global.name == name) = _
  rw [find?_promoteAll, find?_topLevel well agrees, find?_nil, none_or]
  cases found : tree.topLevel.find? fun declaration => declaration.name == name with
  | none =>
    have unshared : (Code.ofTree address tree).shared? name = none := by
      cases shared : (Code.ofTree address tree).shared? name with
      | none => rfl
      | some declaration =>
        obtain ⟨member, named⟩ := mem_topLevel_of_shared? shared
        exact absurd (beq_iff_eq.mpr named) (find?_eq_none.mp found declaration member)
    rw [unshared, map_none, ite_self]
  | some declaration =>
    have member := mem_of_find?_eq_some found
    obtain rfl : declaration.name = name := by simpa using find?_some found
    have named := mem_map_of_mem (f := TopLevel.name) member
    rw [shared?_of_mem well address member]
    have same : declaration.name ∈ (Declared.all tree).flatMap (Declared.outerNames scopes) ↔
        ((Declared.all tree).any fun function => Code.uses function declaration.name) = true := by
      rw [mem_flatMap, List.any_eq_true]
      refine exists_congr fun function => and_congr_right fun inside => ?_
      exact mem_outerNames well agrees inside named
    by_cases isUsed : ((Declared.all tree).any fun function =>
        Code.uses function declaration.name) = true
    · rw [if_pos (same.mpr isUsed), if_pos isUsed]
    · rw [if_neg fun inside => isUsed (same.mp inside), if_neg isUsed]
      rfl

end

end ArmBackend.Ir
