import ArmBackend.Proofs.Lowering.Globals
import ArmBackend.Proofs.Lowering.Passing
import ArmBackend.Proofs.Lowering.Vocabulary

/-!
# Where functions come from

Every function of a program is the code of the statements at top level or of a declared
function, in a frame.  Temporaries, labels and strings are numbered on from one function to
the next.
-/

namespace ArmBackend.Ir

open List

/-- The place where a declared function is lowered. -/
def Declared.place (around : Surroundings) (declared : Declared) : Place :=
  ⟨around, some declared.name, declared.result⟩

/-- The draft at the start of a declared function. -/
def Declared.draft (context : Context) (declared : Declared) : Draft :=
  ⟨context, parameterBindings declared.parameters, []⟩

/-- The place where the entry code is lowered. -/
def entryPlace (around : Surroundings) : Place :=
  ⟨around, none, .int⟩

/-- What a function of a program is the code of. -/
inductive Origin where
  | entry (body : List Stmt)
  | declared (function : Declared)

namespace Origin

def name : Origin → String
  | entry _ => entryName
  | declared function => function.name

def place (around : Surroundings) : Origin → Place
  | entry _ => entryPlace around
  | declared function => function.place around

/-- The draft at the start of the code. -/
def draft (context : Context) : Origin → Draft
  | entry _ => { context }
  | declared function => function.draft context

def body : Origin → List Stmt
  | entry body => body
  | declared function => function.body

def parameters : Origin → List Operand
  | entry _ => []
  | declared function =>
    function.parameters.map fun parameter => .param parameter.name parameter.type

/-- The code of the body, and the draft behind it. -/
def lower (around : Surroundings) (context : Context) : Origin → Lowering
  | entry body => lowerEntry (entryPlace around) { context } body
  | declared function =>
    lowerStmts (function.place around) (function.draft context) function.body

/-- What stands at the end if the body does not return. -/
def ending : Origin → Instr
  | entry _ => Instr.ret (some (.int 0))
  | declared function => Instr.exit function.name

/-- The names that are declared as arrays. -/
def arrays (origin : Origin) : List String :=
  Stmt.arraysInList origin.body

/-- The names that the source uses or declares, and those that it has elements of. -/
def words (origin : Origin) : Vocabulary where
  names := Stmt.namesOfList origin.body ++ Stmt.declaresInList origin.body
  arrays := Stmt.indexedInList origin.body

/-- The names that are declared for the function itself. -/
def names (around : Surroundings) : Origin → List String
  | entry body => Stmt.entryNames (entryPlace around).isShared body
  | declared function =>
    function.parameters.map Parameter.name ++ Stmt.declaresInList function.body

/-- The calls of the source in the order of the code, with the types of the arguments. -/
def calls (around : Surroundings) : Origin → List (String × List DataType)
  | entry body => Stmt.entryCalls (entryPlace around) [] body
  | declared function =>
    Stmt.callsInList (function.place around) (parameterBindings function.parameters) function.body

/-- The string literals of the source in the order of the code. -/
def literals (origin : Origin) : List String :=
  Stmt.literalsInList origin.body

/-- The statements are well typed where they are lowered. -/
def isTyped (around : Surroundings) : Origin → Bool
  | entry body => Stmt.entryIsTyped (entryPlace around) (Stmt.arraysInList body) [] body
  | declared function =>
    Stmt.areTyped (function.place around) (Stmt.arraysInList function.body)
      (parameterBindings function.parameters) function.body

/-- The declarations at top level have the types of their globals. -/
def Uniform (around : Surroundings) : Origin → Prop
  | entry body => ∀ stmt ∈ body, (entryPlace around).Uniform stmt
  | declared _ => True

/-- The functions of the program of a tree. -/
def all (tree : Tree) : List Origin :=
  entry tree.entry :: (Declared.all tree).map declared

variable (origin : Origin)

theorem within_words : ∀ stmt ∈ origin.body, stmt.Within origin.words :=
  Stmt.within_of_list (subset_append_left _ _) (subset_append_right _ _)
    (List.Subset.refl _)

/-- Parameters have storage of their own. -/
theorem own (context : Context) : Bindings.Own (origin.draft context).bindings := by
  cases origin with
  | entry body => exact forall_mem_nil _
  | declared function =>
    intro entry member
    obtain ⟨parameter, _, rfl⟩ := mem_map.mp (mem_reverse.mp member)
    exact .inr rfl

theorem around_place (around : Surroundings) : (origin.place around).around = around := by
  cases origin <;> rfl

theorem context_draft (context : Context) : (origin.draft context).context = context := by
  cases origin <;> rfl

theorem lowers_of_lower {around : Surroundings} {context : Context} {body : List Instr}
    {final : Draft} (lowered : origin.lower around context = .ok (body, final)) :
    ∃ bound, (origin.draft context).Lowers bound body final ∧
      final.bindings.map Prod.fst = (origin.names around).reverse := by
  cases origin with
  | entry stmts =>
    have lowers := lowerEntry_lowers lowered
    refine ⟨_, lowers, ?_⟩
    rw [lowers.bindings, map_append, map_reverse, Stmt.names_entryBindings]
    exact append_nil _
  | declared function =>
    have lowers := lowerStmts_lowers _ _ _ _ function.body lowered
    refine ⟨_, lowers, ?_⟩
    rw [lowers.bindings, map_append, map_reverse, Stmt.names_gatherList, names, reverse_append]
    exact congrArg _ (names_parameterBindings function.parameters)

end Origin

/-- The end of a function. -/
inductive Closes (origin : Origin) (body : List Instr) : List Instr → Prop where
  /-- the code ends in a return anyway -/
  | returned (ends : endsInReturn (Instr.enter origin.name :: body) = true) :
      Closes origin body []
  | ended : Closes origin body [origin.ending]

/-- The function is the code of its origin in a frame. -/
structure Derives (around : Surroundings) (strict : Prop) (origin : Origin) (context : Context)
    (final : Draft) (function : Function) : Prop where
  name : function.name = origin.name
  result : function.result = (origin.place around).result
  parameters : function.parameters = origin.parameters
  framed : ∃ body closing, origin.lower around context = .ok (body, final) ∧
    function.code = Instr.enter origin.name :: (body ++ closing) ∧ Closes origin body closing
  writes : Writes (origin.place around) origin.arrays strict origin.words (origin.draft context) []
    function.code ⟨origin.calls around, origin.literals⟩ final []

/-- The functions are the code of their origins one after the other. -/
inductive Chain (around : Surroundings) (strict : Prop) :
    Context → List Origin → List Function → Context → Prop where
  | nil (context : Context) : Chain around strict context [] [] context
  | cons {context after : Context} {origin : Origin} {origins : List Origin} {final : Draft}
      {function : Function} {functions : List Function}
      (derives : Derives around strict origin context final function)
      (more : Chain around strict final.context origins functions after) :
      Chain around strict context (origin :: origins) (function :: functions) after

variable {suppress : Bool} {scopes : ScopeTrace} {name : String} {tree : Tree}

/-- The frame is written around the body. -/
theorem Closes.writes {origin : Origin} {around : Surroundings} {arrays : List String}
    {strict : Prop} {words : Vocabulary} {draft final : Draft} {uses : Uses}
    {body closing : List Instr} (closes : Closes origin body closing)
    (writes : Writes (origin.place around) arrays strict words draft [] body uses final []) :
    Writes (origin.place around) arrays strict words draft []
      (Instr.enter origin.name :: (body ++ closing)) uses final [] := by
  refine .step (.enter origin.name) (writes.followed ?_)
  cases closes with
  | returned ends => exact .refl final []
  | ended =>
    cases origin with
    | entry stmts =>
      refine .step (.evaluate (.literal (.int 0) .int rfl)) (Emits.leave 0 ?_ ?_).writes
      · rintro operand ⟨⟩
        exact mem_cons_self ..
      · exact fun _ _ => nofun
    | declared function => exact (Emits.exit function.name).writes

section

variable {around : Surroundings} {strict : Prop} {context after : Context}

section

variable {origin : Origin} {final : Draft} {function : Function}
  (derives : Derives around strict origin context final function)
include derives

theorem Derives.lowers :
    (∃ body bound, (origin.draft context).Lowers bound body final) ∧
      final.bindings.map Prod.fst = (origin.names around).reverse := by
  obtain ⟨body, _, lowered, _⟩ := derives.framed
  obtain ⟨bound, lowers, names⟩ := origin.lowers_of_lower lowered
  exact ⟨⟨body, bound, lowers⟩, names⟩

theorem Derives.giving : Giving [] function.code (origin.calls around) :=
  derives.writes.giving

/-- What holds of values and of places with names holds of all operands. -/
theorem Derives.every {holds stands : Operand → Prop} (admits : Admits origin.words holds stands)
    (located : ∀ {operand spot}, operand.location? = some spot →
      spot.name ∈ origin.words.names → holds operand) :
    ∀ instr ∈ function.code, Every stands instr.operands := by
  intro instr member
  have made := derives.writes.made admits (origin.own context)
    (fun _ own _ => admits.gives _ own located) .nil
  exact (made instr member).every admits

end

variable {origins : List Origin} {functions : List Function}
  (chain : Chain around strict context origins functions after)
include chain

/-- What holds of every function and its origin. -/
theorem Chain.forall₂ {holds : Function → Origin → Prop}
    (each : ∀ {origin context final function}, origin ∈ origins →
      Derives around strict origin context final function → holds function origin) :
    Forall₂ holds functions origins := by
  induction chain with
  | nil => exact .nil
  | cons derives _ ih =>
    refine .cons (each (mem_cons_self ..) derives) (ih fun member => ?_)
    exact each (mem_cons_of_mem _ member)

/-- What holds of every function. -/
theorem Chain.forall_mem {holds : Function → Prop}
    (each : ∀ {origin context final function},
      Derives around strict origin context final function → holds function) :
    ∀ function ∈ functions, holds function := by
  induction chain with
  | nil => exact forall_mem_nil _
  | cons derives _ ih => exact forall_mem_cons.mpr ⟨each derives, ih⟩

end

section

variable {around : Surroundings} {strict : Prop} {context after : Context} {function : Function}

theorem ofEntry_derives {stmts : List Stmt}
    (lowered : Function.ofEntry around suppress context stmts = .ok (function, after))
    (typed : strict → (Origin.entry stmts).isTyped around = true)
    (uniform : strict → (Origin.entry stmts).Uniform around) :
    ∃ final, Derives around strict (.entry stmts) context final function ∧
      final.context = after := by
  rw [Function.ofEntry] at lowered
  obtain ⟨⟨body, final⟩, inner, same⟩ := bind_ok lowered
  cases same
  have writes := lowerEntry_writes _ _ inner (Origin.within_words (.entry stmts)) typed uniform
  have closes : Closes (.entry stmts) body (if suppress &&
      endsInReturn (.enter entryName :: body) then [] else [Instr.ret (some (.int 0))]) := by
    split
    · next ends =>
        simp only [Bool.and_eq_true] at ends
        exact .returned ends.2
    · exact .ended
  exact ⟨final, ⟨rfl, rfl, rfl, ⟨_, _, inner, rfl, closes⟩, closes.writes writes⟩, rfl⟩

theorem ofDeclared_derives {declared : Declared}
    (lowered : Function.ofDeclared around context declared = .ok (function, after))
    (typed : strict → (Origin.declared declared).isTyped around = true) :
    ∃ final, Derives around strict (.declared declared) context final function ∧
      final.context = after := by
  rw [Function.ofDeclared] at lowered
  simp only [List.map_map] at lowered
  obtain ⟨⟨body, final⟩, inner, same⟩ := bind_ok lowered
  cases same
  have writes := lowerStmts_writes (declared.place around) (Stmt.arraysInList declared.body)
    declared.body inner (Origin.within_words (.declared declared)) typed
  have closes : Closes (.declared declared) body
      (if endsInReturn (.enter declared.name :: body) then [] else [.exit declared.name]) := by
    split
    · next ends => exact .returned ends
    · exact .ended
  exact ⟨final, ⟨rfl, rfl, rfl, ⟨_, _, inner, rfl, closes⟩, closes.writes writes⟩, rfl⟩

theorem ofDeclaredList_chain {declarations : List Declared} {functions : List Function}
    (lowered : Function.ofDeclaredList around context declarations = .ok (functions, after))
    (typed : strict → ∀ declared ∈ declarations,
      (Origin.declared declared).isTyped around = true) :
    Chain around strict context (declarations.map .declared) functions after := by
  induction declarations generalizing context functions with
  | nil =>
    cases lowered
    exact .nil _
  | cons first rest ih =>
    rw [Function.ofDeclaredList] at lowered
    obtain ⟨⟨function, between⟩, one, more⟩ := bind_ok lowered
    obtain ⟨⟨others, last⟩, two, same⟩ := bind_ok more
    cases same
    simp only [forall_mem_cons, imp_and] at typed
    obtain ⟨final, derives, rfl⟩ := ofDeclared_derives one typed.1
    exact .cons derives (ih two typed.2)

end

theorem Surroundings.find?_of_global? {global : Global}
    (found : (Surroundings.ofTree scopes tree).global? name = some global) :
    ∃ declaration, TopLevel.find? (TopLevel.all scopes tree) name = some declaration ∧
      global = declaration.toGlobal := by
  rw [global?, ofTree, Global.ofTree, find?_promoteAll, find?_nil, Option.none_or] at found
  split at found
  · obtain ⟨declaration, declared, rfl⟩ := Option.map_eq_some_iff.mp found
    exact ⟨declaration, declared, rfl⟩
  · cases found

theorem Tree.uniform_entry (uniform : tree.hasUniformGlobals scopes = true) :
    (Origin.entry tree.entry).Uniform (Surroundings.ofTree scopes tree) := by
  intro stmt member declaration declares global found
  obtain ⟨other, last, rfl⟩ := Surroundings.find?_of_global? found
  have one : other ∈ TopLevel.all scopes tree :=
    mem_reverse.mp (mem_of_find?_eq_some last)
  have two : declaration ∈ TopLevel.all scopes tree :=
    mem_append_right _ (mem_filterMap.mpr ⟨stmt, member, declares⟩)
  have same := all_eq_true.mp (all_eq_true.mp uniform other one) declaration two
  rw [name_of_find? last] at same
  show other.type = declaration.type
  simpa using same

theorem ofTree_chain {strict : Prop} {program : Program} {context : Context}
    (lowered : Program.ofTree scopes suppress tree = .ok (program, context))
    (typed : strict → tree.isTyped scopes = true) :
    Chain (Surroundings.ofTree scopes tree) strict .empty (Origin.all tree) program.functions
        context ∧
      program.globals = Global.ofTree scopes tree ∧ program.strings = context.strings := by
  rw [Program.ofTree] at lowered
  obtain ⟨⟨entry, between⟩, one, more⟩ := bind_ok lowered
  obtain ⟨⟨others, last⟩, two, same⟩ := bind_ok more
  cases same
  simp only [Tree.isTyped, Bool.and_eq_true, all_eq_true, imp_and] at typed
  obtain ⟨final, derives, rfl⟩ := ofEntry_derives one typed.1.2
    fun strictly => Tree.uniform_entry (typed.1.1 strictly)
  have chain := ofDeclaredList_chain two typed.2
  exact ⟨.cons derives chain, rfl, rfl⟩

end ArmBackend.Ir
