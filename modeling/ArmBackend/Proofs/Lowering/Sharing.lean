import ArmBackend.Proofs.Lowering.Origins

/-!
# Storage that functions share

What a function takes from the top level is a global of the program.  A variable that is a
global has no other storage: all code that does not declare the name itself loads the global
and stores to it.
-/

namespace ArmBackend.Ir

open List

/-- The operand has the name neither as a variable nor as a parameter or a global. -/
def Operand.Avoids (name : String) (operand : Operand) : Prop :=
  operand.mentions (.var name) = false ∧ operand.mentions (.param name) = false ∧
    operand.mentions (.global name) = false

/-- The instruction has the name only as a global, which it loads or stores to. -/
structure Instr.Shares (name : String) (instr : Instr) : Prop where
  unowned : ∀ operand ∈ instr.operands,
    operand.mentions (.var name) = false ∧ operand.mentions (.param name) = false
  shared : ∀ operand ∈ instr.operands, operand.mentions (.global name) = true →
    operand.location? = some (.global name) ∧
      (instr.opcode = .load ∧ instr.src1 = some operand ∨
        instr.opcode = .store ∧ instr.dest = some operand)

variable {bindings : Bindings} {context : Context} {final : Draft} {operand : Operand}
  {strict : Prop} {scopes : ScopeTrace} {words : Vocabulary} {name : String}
  {around : Surroundings}

theorem Operand.avoids_of_location? {place : Location}
    (located : operand.location? = some place) (differ : place.name ≠ name) :
    operand.Avoids name := by
  cases operand <;> cases located <;> simp_all [Avoids, mentions, location?, Location.name]

/-- The name is avoided, or it is that of the place. -/
def Operand.Spares (name : String) (operand : Operand) : Prop :=
  operand.Avoids name ∨ operand.location? = some (.global name)

/-- Only loads and stores have the global itself. -/
theorem Instr.Made.shares {instr : Instr}
    (made : instr.Made (Operand.Avoids name) (Operand.Spares name)) : instr.Shares name where
  unowned operand member := by
    have either : operand.Spares name := (made operand member).elim .inl And.left
    rcases either with avoids | global
    · exact ⟨avoids.1, avoids.2.1⟩
    · cases operand <;> cases global
      simp [Operand.mentions, Operand.location?]
  shared operand member mentions := by
    have named (avoids : operand.Avoids name) : False :=
      Bool.noConfusion (avoids.2.2.symm.trans mentions)
    rcases made operand member with avoids | ⟨avoids | global, element | accessed⟩
    · exact (named avoids).elim
    · exact (named avoids).elim
    · exact (named avoids).elim
    · cases operand <;> cases global
      cases element
    · exact ⟨global, accessed⟩

/-! ## Steps -/

/-- The name is that of a global which is no array. -/
def Place.HasScalar (place : Place) (name : String) : Prop :=
  ∃ global, place.around.global? name = some global ∧ global.count = none

/-- The name is not bound. -/
def Bindings.Free (name : String) (bindings : Bindings) : Prop :=
  ∀ entry ∈ bindings, entry.1 ≠ name

theorem Bindings.Free.lookup (free : bindings.Free name) :
    bindings.lookup name = none := by
  refine lookup_eq_none_iff.mpr fun entry member => ?_
  exact bne_iff_ne.mpr (free entry member).symm

section

variable {place : Place} {name : String}

theorem Place.HasScalar.resolve (scalar : place.HasScalar name) (free : bindings.Free name) :
    ∃ type, place.resolve bindings name = .shared (.global name type) := by
  obtain ⟨global, found, count⟩ := scalar
  refine ⟨global.type, ?_⟩
  rw [Place.resolve, free.lookup]
  dsimp only
  rw [found]
  dsimp only
  rw [Storage.ofGlobal, count, Surroundings.name_of_global? found]

/-- Other names stand for other places. -/
theorem Place.avoids_resolve (place : Place) (own : bindings.Own) {other : String}
    (differ : other ≠ name) : (place.resolve bindings other).operand.Avoids name := by
  have named := place.named_resolve own other
  obtain ⟨spot, located⟩ := named.location?
  refine Operand.avoids_of_location? located ?_
  rw [named.name_eq located]
  exact differ

theorem admits_avoids (words : Vocabulary) (name : String) :
    Admits words (Operand.Avoids name) (Operand.Spares name) where
  value := .inl
  temp _ _ := by simp [Operand.Avoids, Operand.mentions, Operand.location?]
  literal _ _ _ := by simp [Operand.Avoids, Operand.mentions, Operand.location?]
  label _ _ := by simp [Operand.Avoids, Operand.mentions, Operand.location?]
  element _ _ avoids := .inl avoids
  global {other} type _ := by
    by_cases same : other = name
    · exact .inr (same ▸ rfl)
    · exact .inl (Operand.avoids_of_location? rfl same)

/-- Where the name is not bound, it stands for the global. -/
theorem Place.HasScalar.gives (scalar : place.HasScalar name) (own : bindings.Own)
    (free : bindings.Free name) :
    place.Gives words (Operand.Avoids name) (Operand.Spares name) bindings := by
  intro other _
  by_cases same : other = name
  · obtain ⟨type, stored⟩ := scalar.resolve free
    rw [same, stored]
    exact .inr rfl
  · have avoids := place.avoids_resolve own same
    split
    · next stored =>
        rw [stored] at avoids
        exact .inl avoids
    · exact avoids

end

/-! ## Functions -/

section

variable {around : Surroundings} {origin : Origin} {function : Function}
  (derives : Derives around strict origin context final function)
include derives

theorem Derives.shares {name : String} (scalar : (origin.place around).HasScalar name)
    (outside : name ∉ origin.names around) : Every (Instr.Shares name) function.code := by
  have free : Bindings.Free name final.bindings := fun entry member same =>
    outside (same ▸ mem_reverse.mp (derives.lowers.2 ▸ mem_map_of_mem member))
  have made := derives.writes.made (admits_avoids _ name) (origin.own context)
    (fun bindings own within => scalar.gives own fun entry member =>
      free entry (within.subset member)) .nil
  exact fun instr member => (made instr member).shares

theorem Derives.within :
    ∀ instr ∈ function.code, Every (Operand.Within origin.words) instr.operands :=
  derives.every (admits_within _) Operand.within_of_location?

end

/-- The names that a function declares itself; at top level, those declared below it. -/
def Origin.inner : Origin → List String
  | entry body => body.flatMap fun stmt => if stmt.declaredName?.isSome then [] else stmt.declares
  | declared function => function.declares

theorem Origin.not_mem_names {origin : Origin}
    (shared : (around.global? name).isSome = true) (outside : name ∉ origin.inner) :
    name ∉ origin.names around := by
  cases origin with
  | declared function => exact outside
  | entry body =>
    intro inside
    obtain ⟨stmt, member, here⟩ := mem_flatMap.mp inside
    refine outside (mem_flatMap.mpr ⟨stmt, member, ?_⟩)
    split at here
    · cases here
    · next own =>
        cases stmt with
        | varDecl | arrayDecl =>
          rw [mem_singleton.mp here] at shared
          exact absurd shared own
        | _ => exact here

/-! ## Globals -/

/-- No name is promoted twice. -/
theorem nodup_promoteAll (declarations : List TopLevel) (used : List String)
    {globals : List Global} (distinct : (globals.map Global.name).Nodup) :
    ((used.foldl (Global.promote declarations) globals).map Global.name).Nodup := by
  induction used generalizing globals with
  | nil => exact distinct
  | cons first rest ih =>
    refine ih ?_
    unfold Global.promote
    split
    · exact distinct
    · next absent =>
        split
        · next declaration found =>
            have fresh : declaration.toGlobal.name ∉ globals.map Global.name := by
              intro member
              obtain ⟨global, there, same⟩ := mem_map.mp member
              refine absent (List.any_eq_true.mpr ⟨global, there, beq_iff_eq.mpr ?_⟩)
              exact same.trans (name_of_find? found)
            rw [map_append]
            exact nodup_append_comm.mpr (nodup_cons.mpr ⟨fresh, distinct⟩)
        · exact distinct

theorem nodup_globals (scopes : ScopeTrace) (tree : Tree) :
    ((Global.ofTree scopes tree).map Global.name).Nodup :=
  nodup_promoteAll _ _ nodup_nil

theorem countP_globals {tree : Tree} {declared : Declared} (member : declared ∈ Declared.all tree)
    (used : name ∈ declared.outerNames scopes)
    (top : ∃ declaration ∈ TopLevel.all scopes tree, declaration.name = name) :
    (Global.ofTree scopes tree).countP (fun global => global.name == name) = 1 := by
  obtain ⟨declaration, there, same⟩ := top
  have inside : name ∈ (Declared.all tree).flatMap (Declared.outerNames scopes) :=
    mem_flatMap.mpr ⟨declared, member, used⟩
  have found : (TopLevel.find? (TopLevel.all scopes tree) name).isSome = true :=
    find?_isSome.mpr ⟨declaration, mem_reverse.mpr there, beq_iff_eq.mpr same⟩
  have listed := find?_promoteAll (TopLevel.all scopes tree)
    ((Declared.all tree).flatMap (Declared.outerNames scopes)) [] name
  rw [if_pos inside, find?_nil, Option.none_or] at listed
  have positive : 0 < (Global.ofTree scopes tree).countP (fun global => global.name == name) := by
    refine countP_pos_iff.mpr (find?_isSome.mp ?_)
    rw [Global.ofTree, listed, Option.isSome_map, found]
  have counted : (Global.ofTree scopes tree).countP (fun global => global.name == name) =
      ((Global.ofTree scopes tree).map Global.name).count name := by
    rw [List.count, countP_map]
    rfl
  rw [counted] at positive ⊢
  exact count_eq_one_of_mem (nodup_globals scopes tree) (count_pos_iff.mp positive)

/-- The names that occur in an operand. -/
def Operand.names : Operand → List String
  | var name _ | param name _ | global name _ => [name]
  | element array index _ => array :: index.names
  | _ => []

theorem Operand.Within.names_subset (within : operand.Within words) :
    operand.names ⊆ words.names := by
  induction operand with
  | var _ _ | param _ _ | global _ _ =>
    exact cons_subset.mpr ⟨within, nil_subset _⟩
  | element array index type ih => exact cons_subset.mpr ⟨within.1, ih within.2.2⟩
  | temp _ _ | label _ _ | immediate _ _ => exact nil_subset _

theorem Operand.Within.arrays_subset (within : operand.Within words) :
    operand.arrays ⊆ words.arrays := by
  induction operand with
  | element array index type ih => exact cons_subset.mpr ⟨within.2.1, ih within.2.2⟩
  | _ => exact nil_subset _

/-- The function of the tree uses the name, in its source or in its code. -/
def Declared.Uses (declared : Declared) (function : Function) (name : String) : Prop :=
  name ∈ Stmt.namesOfList declared.body ∨
    ∃ instr ∈ function.code, ∃ operand ∈ instr.operands, name ∈ operand.names

/-- The name belongs to the function: as a parameter, a declaration, or a symbol of its scope. -/
def Declared.Owns (scopes : ScopeTrace) (declared : Declared) (name : String) : Prop :=
  name ∈ declared.declares ∨
    ∃ scope, scopes.functionScope? declared.name = some scope ∧ name ∈ scope.declared

/-- What a name of the top level has for storage in a function. -/
structure Function.Unsplit (scopes : ScopeTrace) (tree : Tree) (globals : List Global)
    (function : Function) (origin : Origin) : Prop where
  /-- what a declared function takes from the top level is a global, listed once -/
  promoted : ∀ declared, origin = .declared declared → ∀ name, declared.Uses function name →
    ¬ declared.Owns scopes name →
      (∃ declaration ∈ TopLevel.all scopes tree, declaration.name = name) →
        globals.countP (fun global => global.name == name) = 1
  /-- a global that is no array is loaded and stored, where it is not declared otherwise -/
  shared : ∀ global ∈ globals, global.count = none → global.name ∉ origin.inner →
    ∀ instr ∈ function.code, instr.Shares global.name
  /-- only names that have an index in the source have elements in the code -/
  indexed : ∀ instr ∈ function.code, ∀ operand ∈ instr.operands,
    operand.arrays ⊆ Stmt.indexedInList origin.body

theorem Derives.mem_outerNames {declared : Declared} {function : Function}
    (derives : Derives around strict (.declared declared) context final function)
    (uses : declared.Uses function name) (foreign : ¬ declared.Owns scopes name) :
    name ∈ declared.outerNames scopes := by
  have undeclared : name ∉ declared.declares := fun own => foreign (.inl own)
  have used : name ∈ Stmt.namesOfList declared.body := by
    rcases uses with used | ⟨instr, there, operand, inside, occurs⟩
    · exact used
    · have known := (derives.within instr there operand inside).names_subset occurs
      rcases mem_append.mp known with used | own
      · exact used
      · exact absurd (mem_append_right _ own) undeclared
  have outside : name ∉ declared.ownNames scopes := by
    intro own
    rcases mem_append.mp own with own | own
    · rcases mem_append.mp own with own | own
      · exact undeclared (mem_append_left _ own)
      · exact undeclared (mem_append_right _ (Stmt.declaredInList_subset _ own))
    · cases found : scopes.functionScope? declared.name with
      | none =>
        rw [found] at own
        cases own
      | some scope =>
        rw [found] at own
        exact foreign (.inr ⟨scope, found, own⟩)
  simp [Declared.outerNames, used, outside]

/-- A function adds to a variable of the top level; another has a variable of the same name. -/
def tallying : Tree where
  statements :=
    [.varDecl ⟨1, 1⟩ "total" .int (some (.int ⟨1, 18⟩ 5)),
      .functionDecl ⟨2, 1⟩ "add" [⟨"amount", .int⟩] .void
        [.assign ⟨3, 3⟩ "total"
          (.binary ⟨3, 11⟩ .add (.name ⟨3, 11⟩ "total") (.name ⟨3, 19⟩ "amount"))],
      .functionDecl ⟨5, 1⟩ "fresh" [] .int
        [.varDecl ⟨6, 3⟩ "total" .int none, .ret ⟨7, 3⟩ (some (.name ⟨7, 10⟩ "total"))],
      .println ⟨9, 1⟩ (.name ⟨9, 9⟩ "total")]

/-- A function that indexes a variable which is no array. -/
def resetting : Tree where
  statements :=
    [.varDecl ⟨1, 1⟩ "total" .int (some (.int ⟨1, 18⟩ 1)),
      .functionDecl ⟨2, 1⟩ "reset" [] .void
        [.indexAssign ⟨3, 3⟩ "total" (.int ⟨3, 9⟩ 0) (.int ⟨3, 14⟩ 5)],
      .expr ⟨5, 1⟩ (.call ⟨5, 1⟩ "reset" []),
      .println ⟨6, 1⟩ (.name ⟨6, 9⟩ "total")]

end ArmBackend.Ir
