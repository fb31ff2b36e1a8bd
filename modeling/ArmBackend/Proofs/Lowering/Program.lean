import ArmBackend.Proofs.Lowering.Targets

/-!
# Code of programs

Well-formed trees have programs.  The entry function and the declared functions of
such a program are put together as the code of statements asks for, so that the run
of the program covers the run of the tree.
-/

namespace ArmBackend.Ir

open List

open Source (World Code Handlers Run Flow)

variable {context : Context} {declared : Declared} {final : Draft} {function : Function}
  {stmts : List Stmt} {program : Program} {scopes : ScopeTrace} {stage : Stage} {tree : Tree}
  {strict : Prop} {origin : Origin} {address : String → Word}

section

variable {around : Surroundings}

/-- The arrays of a function are declared in it. -/
theorem Derives.mem_of_owns (derives : Derives around strict origin context final function)
    {array : String} (owns : function.owns array = true) :
    array ∈ final.bindings.map Prod.fst := by
  obtain ⟨body, closing, lowered, code, closes⟩ := derives.framed
  obtain ⟨bound, lowers, _⟩ := origin.lowers_of_lower lowered
  obtain ⟨instr, member, sets⟩ := List.any_eq_true.mp owns
  rw [Bool.and_eq_true, decide_eq_true_iff] at sets
  have inside : instr ∈ arraysOf function.code := mem_filter.mpr ⟨member, sets.1⟩
  have framed : arraysOf (Instr.enter origin.name :: (body ++ closing)) =
    arraysOf (body ++ closing) := rfl
  rw [code, framed, arraysOf_append, arraysOf_of_plain closes.isPlain, append_nil] at inside
  rw [lowers.bindings, map_append, map_reverse]
  exact mem_append_left _ (mem_reverse.mpr (lowers.owned instr inside array sets.2))

/-- The functions of a program are found by the names of their origins. -/
theorem Chain.find {after : Context} {origins : List Origin} {functions : List Function}
    (chain : Chain around strict context origins functions after) (loops : context.loops = [])
    (distinct : (origins.map Origin.name).Nodup) :
    context.strings.entries <+: after.strings.entries ∧ ∀ origin ∈ origins,
      ∃ context final function, context.loops = [] ∧
        (functions.find? fun other => other.name == origin.name) = some function ∧
        Derives around strict origin context final function ∧
        final.context.strings.entries <+: after.strings.entries := by
  induction chain with
  | nil => exact ⟨prefix_refl _, forall_mem_nil _⟩
  | @cons context _ first _ _ _ _ derives _ ih =>
    obtain ⟨fresh, distinct⟩ := nodup_cons.mp distinct
    obtain ⟨strings, found⟩ := ih (derives.labelled loops).loops distinct
    obtain ⟨⟨body, bound, lowers⟩, _⟩ := derives.lowers
    have longer := lowers.issued.strings
    rw [first.context_draft context] at longer
    refine ⟨longer.trans strings, forall_mem_cons.mpr ⟨?_, fun origin member => ?_⟩⟩
    · exact ⟨_, _, _, loops, find?_cons_of_pos (by simp [derives.name]), derives, strings⟩
    · obtain ⟨start, final, function, fine, hit, rest⟩ := found origin member
      refine ⟨start, final, function, fine, ?_, rest⟩
      rw [find?_cons_of_neg, hit]
      rw [derives.name, beq_iff_eq]
      exact fun same => fresh (same ▸ mem_map_of_mem member)

end

section

/-- What the environment of a run provides. -/
structure Env.Provides (env : Env) (program : Program) (address : String → Word) : Prop where
  floats : env.floats = .binary64
  strings : ∀ id literal, program.strings.get? id = some literal →
    env.label (Operand.stringLabel id) = address literal

variable {name : String}

theorem entryNames_sublist (shared : String → Bool) (stmts : List Stmt) :
    (Stmt.entryNames shared stmts).Sublist (Stmt.declaresInList stmts) := by
  induction stmts with
  | nil => exact List.Sublist.slnil
  | cons stmt rest ih =>
    refine List.Sublist.append ?_ ih
    dsimp only
    split
    · exact nil_sublist _
    · exact List.Sublist.refl _

theorem not_mem_entryNames {shared : String → Bool} (distinct : (Stmt.declaresInList stmts).Nodup)
    {declaration : TopLevel} (member : declaration ∈ stmts.filterMap TopLevel.ofStmt?)
    (isShared : shared declaration.name = true) :
    declaration.name ∉ Stmt.entryNames shared stmts := by
  induction stmts with
  | nil => cases member
  | cons stmt rest ih =>
    obtain ⟨_, others, apart⟩ := nodup_append.mp distinct
    rw [Stmt.entryNames, flatMap_cons, mem_append, not_or]
    obtain ⟨source, inside, same⟩ := mem_filterMap.mp member
    cases inside with
    | head =>
      have shares : stmt.sharesName shared = true ∧ declaration.name ∈ stmt.declares := by
        cases stmt with
        | varDecl position name type initial | arrayDecl position name type size elements =>
          cases same
          exact ⟨isShared, mem_singleton.mpr rfl⟩
        | _ => cases same
      rw [if_pos shares.1]
      refine ⟨not_mem_nil, fun behind => ?_⟩
      exact apart _ shares.2 _ ((entryNames_sublist shared rest).subset behind) rfl
    | tail _ behind =>
      have declared : declaration ∈ rest.filterMap TopLevel.ofStmt? :=
        mem_filterMap.mpr ⟨source, behind, same⟩
      refine ⟨fun first => ?_, ih others declared⟩
      have later := (topLevel_sublist rest).subset (mem_map_of_mem declared)
      split at first
      · cases first
      · exact apart _ first _ later rfl

variable (well : tree.WellFormed)
include well

/-- A name of a function is not shared. -/
theorem shared?_of_declares (address : String → Word) (member : declared ∈ Declared.all tree)
    (own : name ∈ declared.declares) :
    (Code.ofTree address tree).shared? name = none := by
  cases shared : (Code.ofTree address tree).shared? name with
  | none => rfl
  | some declaration =>
    obtain ⟨inside, rfl⟩ := mem_topLevel_of_shared? shared
    have clash := (well.functions declared member).apart _ own
    exact absurd (mem_map_of_mem inside) clash

variable (agrees : scopes.Agrees tree)
include agrees

/-- The surroundings of a tree suit its functions. -/
theorem Derives.fits (loops : context.loops = [])
    (derives : Derives (Surroundings.ofTree scopes tree) strict origin context final
      stage.function) (provides : stage.env.Provides stage.program address)
    (admits : stage.Admits (Code.ofTree address tree) final) :
    stage.Fits (Code.ofTree address tree) (origin.place (Surroundings.ofTree scopes tree)) where
  labels := (derives.labelled loops).marks.nodup
  floats := provides.floats
  strings := provides.strings
  shared name declaration found := by
    rw [origin.around_place, global?_ofTree well agrees address, found]
    rfl
  apart array shared := by
    cases owns : stage.function.owns array with
    | false => rfl
    | true =>
      rw [admits.avoids array (derives.mem_of_owns owns)] at shared
      cases shared
  results name function found := by
    rw [origin.around_place]
    have reversed : ((Declared.all tree).reverse.find? fun other => other.name == name) =
        some function := by
      rw [find?_reverse_of_nodup Declared.name well.functionNames]
      exact found
    unfold Surroundings.resultType Surroundings.ofTree
    rw [reversed]

theorem shares_ofTree (address : String → Word) :
    (entryPlace (Surroundings.ofTree scopes tree)).Shares (Code.ofTree address tree) tree.entry where
  names name := by
    change ((Surroundings.ofTree scopes tree).global? name).isSome = _
    rw [global?_ofTree well agrees address, Option.isSome_map]
  declared stmt member declaration same isShared := by
    have declared : declaration ∈ tree.topLevel := mem_filterMap.mpr ⟨stmt, member, same⟩
    change ((Surroundings.ofTree scopes tree).global? declaration.name).isSome = true at isShared
    rw [global?_ofTree well agrees address, Option.isSome_map,
      shared?_of_mem well address declared] at isShared
    rw [shared?_of_mem well address declared]
    split
    · rfl
    · next unused =>
        rw [if_neg unused] at isShared
        cases isShared

/-- The names of a function are distinct, and none of them is shared. -/
theorem Origin.names_apart (address : String → Word) (member : origin ∈ Origin.all tree) :
    (origin.names (Surroundings.ofTree scopes tree)).Nodup ∧
      ∀ name ∈ origin.names (Surroundings.ofTree scopes tree),
        (Code.ofTree address tree).shared? name = none := by
  rcases mem_cons.mp member with rfl | member
  · refine ⟨well.distinct.sublist (entryNames_sublist _ _), fun name bound => ?_⟩
    cases shared : (Code.ofTree address tree).shared? name with
    | none => rfl
    | some declaration =>
      obtain ⟨inside, rfl⟩ := mem_topLevel_of_shared? shared
      have isShared := (shares_ofTree well agrees address).names declaration.name
      rw [shared] at isShared
      exact absurd bound (not_mem_entryNames well.distinct inside isShared)
  · obtain ⟨declared, listed, rfl⟩ := mem_map.mp member
    exact ⟨(well.functions declared listed).distinct, fun name own =>
      shared?_of_declares well address listed own⟩

/-- The code of a function suits every run of the program. -/
theorem Derives.suits (member : origin ∈ Origin.all tree) (loops : context.loops = [])
    (derives : Derives (Surroundings.ofTree scopes tree) strict origin context final
      stage.function) (provides : stage.env.Provides stage.program address)
    (strings : final.context.strings.entries <+: stage.program.strings.entries) :
    stage.Fits (Code.ofTree address tree) (origin.place (Surroundings.ofTree scopes tree)) ∧
      stage.Admits (Code.ofTree address tree) final := by
  obtain ⟨distinct, apart⟩ := Origin.names_apart well agrees address member
  have names := derives.lowers.2
  have admits : stage.Admits (Code.ofTree address tree) final := by
    refine ⟨?_, fun name bound => ?_, strings⟩
    · rw [names]
      exact (reverse_perm _).nodup_iff.mpr distinct
    · rw [names] at bound
      exact apart name (mem_reverse.mp bound)
  exact ⟨derives.fits well agrees loops provides admits, admits⟩

end

/-- The program has the code of the tree. -/
def ProgramCode (scopes : ScopeTrace) (tree : Tree) (program : Program) : Prop :=
  ∀ origin ∈ Origin.all tree, ∃ context final function, context.loops = [] ∧
    program.function? origin.name = some function ∧
    Derives (Surroundings.ofTree scopes tree) False origin context final function ∧
    final.context.strings.entries <+: program.strings.entries

/-- The program of a well-formed tree has its code. -/
theorem programCode_ofTree (well : tree.WellFormed) {suppress : Bool}
    (lowered : Program.ofTree scopes suppress tree = .ok (program, context)) :
    ProgramCode scopes tree program := by
  obtain ⟨chain, _, strings⟩ := ofTree_chain lowered False.elim
  have distinct : ((Origin.all tree).map Origin.name).Nodup := by
    rw [Origin.all, map_cons, List.map_map]
    exact nodup_cons.mpr ⟨well.notEntry, well.functionNames⟩
  rw [ProgramCode, strings]
  exact (chain.find rfl distinct).2

theorem ProgramCode.functionsCovered (compiled : ProgramCode scopes tree program)
    (well : tree.WellFormed) (agrees : scopes.Agrees tree) {env : Env}
    (provides : env.Provides program address) :
    FunctionsCovered env program (Code.ofTree address tree) := by
  intro name declared found
  have listed := mem_of_find?_eq_some found
  obtain rfl : declared.name = name := by simpa using find?_some found
  have member : Origin.declared declared ∈ Origin.all tree :=
    mem_cons_of_mem _ (mem_map_of_mem listed)
  obtain ⟨context, final, function, loops, hit, derives, strings⟩ := compiled _ member
  obtain ⟨body, closing, lowered, code, closes⟩ := derives.framed
  refine ⟨function, _, _, final, body, closing, hit, ⟨rfl, rfl, loops, lowered,
    derives.parameters, code, ?_, (well.functions declared listed).count⟩, ?_⟩
  · cases closes with
    | returned => exact .inl rfl
    | ended => exact .inr rfl
  · rintro stage rfl rfl rfl
    exact derives.suits well agrees member loops provides strings

end ArmBackend.Ir
