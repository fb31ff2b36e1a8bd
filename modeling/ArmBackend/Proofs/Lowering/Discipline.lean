import ArmBackend.Proofs.Lowering.Origins
import ArmBackend.Proofs.Lowering.Targets
import ArmBackend.Proofs.Passes.Sweeps

/-!
# Lowered code is regular

The steps in which code is written keep to the rules that the passes rely on: temporaries are
new when they are written, and what is known may be read.  In a strict derivation the names of
the source also keep their types.  So passes may be run on the program of every tree, and on
the program of a well-typed tree they change nothing that is seen.
-/

namespace ArmBackend.Ir

open List

/-! ## What code finds written -/

variable {context : Context} {type : DataType} {instr : Instr}
  {uses : Uses} {code : List Instr} {operand value : Operand}
  {strict : Prop} {scan : Scan} {name : String} {words : Vocabulary}

theorem Scan.types_write_of_ne {place : Location} (differ : operand.location? ≠ some place) :
    (scan.write operand).types place = scan.types place :=
  if_neg differ

theorem Scan.after_of_written (straight : instr.opcode.isBoundary = false)
    (written : instr.written? = some operand) : scan.after instr = scan.write operand := by
  rw [after, if_neg (Bool.eq_false_iff.mp straight), written]

theorem Operand.Regular.write (fresh : scan.types (.temp name) = none) (type : DataType)
    (regular : operand.Regular scan) : operand.Regular (scan.write (.temp name type)) := by
  induction operand with
  | temp other own =>
    refine ⟨.inr regular.1, ?_⟩
    rw [Scan.types_write_of_ne]
    · exact regular.2
    · intro same
      cases same
      rw [regular.2] at fresh
      cases fresh
  | element array index own ih => exact ih regular
  | immediate value own => exact regular
  | label other own =>
    intro strict place spot
    cases spot
  | var other own | param other own | global other own =>
    intro strict place spot kind written
    cases spot
    rw [Scan.types_write_of_ne fun same => by cases same] at written
    exact regular strict _ rfl kind written

/-- What is written of a draft when its code has been scanned. -/
structure Ready (place : Place) (arrays : List String) (strict : Prop) (scan : Scan)
    (draft : Draft) (known : List Operand) : Prop where
  same : scan.strict = strict
  /-- temporaries that have not been issued are not written -/
  fresh : ∀ number, draft.context.temps ≤ number → scan.types (.temp (tempName number)) = none
  own : Bindings.Own draft.bindings
  /-- names were last written with their types -/
  agrees : strict → ∀ name, (place.resolve draft.bindings name).operand.Agrees scan
  /-- arrays are not written as a whole -/
  unwritten : strict → ∀ name ∈ arrays, scan.types (.var name) = none
  known : ∀ operand ∈ known, operand.Regular scan

namespace Ready

variable {place : Place} {arrays : List String} {strict : Prop} {scan : Scan} {draft : Draft}
  {known : List Operand} (ready : Ready place arrays strict scan draft known)
include ready

/-- A name may be read. -/
theorem read (name : String) : (place.resolve draft.bindings name).operand.Regular scan := by
  have isVariable := (place.named_resolve ready.own name).isVariable
  have agrees := ready.agrees
  rw [← ready.same] at agrees
  cases same : (place.resolve draft.bindings name).operand with
  | var _ _ | param _ _ | global _ _ => exact fun strictly => same ▸ agrees strictly name
  | _ => rw [same] at isVariable; cases isVariable

/-- Fewer values are needed. -/
theorem forget {fewer : List Operand} (within : fewer ⊆ known) :
    Ready place arrays strict scan draft fewer :=
  { ready with known := fun operand member => ready.known operand (within member) }

theorem add (regular : operand.Regular scan) :
    Ready place arrays strict scan draft (operand :: known) :=
  { ready with known := forall_mem_cons.mpr ⟨regular, ready.known⟩ }

/-- Labels and strings are issued. -/
theorem issue (temps : context.temps = draft.context.temps) :
    Ready place arrays strict scan (draft.withContext context) known :=
  { ready with fresh := fun number issued => ready.fresh number (temps ▸ issued) }

/-- A new temporary is written. -/
theorem write (type : DataType) :
    Ready place arrays strict (scan.write (draft.context.newTemp type).1)
      (draft.withContext (draft.context.newTemp type).2)
      ((draft.context.newTemp type).1 :: known) where
  same := ready.same
  fresh number issued := by
    rw [Scan.types_write_of_ne]
    · exact ready.fresh number (Nat.le_of_succ_le issued)
    · intro same
      have equal := tempName_injective (Location.temp.inj (Option.some.inj same))
      exact absurd issued (by rw [← equal]; exact Nat.not_succ_le_self _)
  own := ready.own
  agrees strictly name spot named type written := by
    rw [Scan.types_write_of_ne] at written
    · exact ready.agrees strictly name spot named type written
    · intro same
      rcases place.named_resolve ready.own name with (own | own) | own <;>
        cases own.symm.trans (named.trans same.symm)
  unwritten strictly name member := by
    rw [Scan.types_write_of_ne fun same => by cases same]
    exact ready.unwritten strictly name member
  known := by
    have fresh := ready.fresh _ (Nat.le_refl _)
    refine forall_mem_cons.mpr ⟨⟨.inl rfl, if_pos rfl⟩, fun operand member => ?_⟩
    exact (ready.known operand member).write fresh type

/-- A boundary is passed. -/
theorem cut : Ready place arrays strict scan.cut draft [] :=
  { ready with known := forall_mem_nil _ }

end Ready

/-! ## Steps are regular -/

theorem Instr.inputs_of_computes (computes : instr.opcode.computes = true) :
    instr.inputs = instr.sources := by
  rw [inputs, if_neg (Opcode.ne_of_computes computes rfl), append_nil]

/-- The code may stand behind what was scanned, and leaves the draft ready. -/
def Continues (place : Place) (arrays : List String) (strict : Prop) (scan : Scan)
    (code : List Instr) (final : Draft) (last : List Operand) : Prop :=
  Regular scan code ∧ Ready place arrays strict (scan.run code) final last

section

variable {place : Place} {arrays : List String} {strict : Prop} {scan : Scan}
  {draft final : Draft} {known last : List Operand}

theorem Continues.append {between : Draft} {middle : List Operand} {first second : List Instr}
    (one : Continues place arrays strict scan first between middle)
    (two : Continues place arrays strict (scan.run first) second final last) :
    Continues place arrays strict scan (first ++ second) final last := by
  refine ⟨regular_append.mpr ⟨one.1, two.1⟩, ?_⟩
  rw [Scan.run, foldl_append]
  exact two.2

variable (ready : Ready place arrays strict scan draft known)
include ready

section

variable {instr : Instr} (formed : instr.Formed scan)
  (inputs : ∀ operand ∈ instr.inputs, operand.Regular scan) (typed : strict → instr.isTyped = true)
include formed inputs typed

/-- An instruction that writes no place as a whole. -/
theorem Ready.idle (straight : instr.opcode.isBoundary = false) (idle : instr.written? = none)
    (within : last ⊆ known) : Continues place arrays strict scan [instr] draft last := by
  refine ⟨⟨⟨formed, inputs, fun strictly => typed (ready.same ▸ strictly)⟩, trivial⟩, ?_⟩
  rw [Scan.run, foldl_cons, foldl_nil, Scan.after, if_neg (Bool.eq_false_iff.mp straight), idle]
  exact ready.forget within

/-- A label or a branch. -/
theorem Ready.boundary (boundary : instr.opcode.isBoundary = true) :
    Continues place arrays strict scan [instr] draft [] := by
  refine ⟨⟨⟨formed, inputs, fun strictly => typed (ready.same ▸ strictly)⟩, trivial⟩, ?_⟩
  rw [Scan.run, foldl_cons, foldl_nil, Scan.after, if_pos boundary]
  exact ready.cut

end

variable (line : Nat)

/-- A new temporary gets a result. -/
theorem Ready.computed {instr : Operand → Instr} {opcode : Opcode}
    (operation : ∀ dest, (instr dest).opcode = opcode)
    (gives : opcode.computes = true ∨ opcode = .call)
    (written : ∀ dest, (instr dest).dest = some dest)
    (inputs : ∀ dest, ∀ operand ∈ (instr dest).inputs, operand.Regular scan)
    (typed : strict → ∀ dest, dest.type = type → (instr dest).isTyped = true) :
    Continues place arrays strict scan (Lowered.computed draft.context type line instr).code
      (draft.withContext (Lowered.computed draft.context type line instr).context)
      ((Lowered.computed draft.context type line instr).operand :: known) := by
  have fresh : Instr.Fresh scan (draft.context.newTemp type).1 :=
    ⟨_, _, rfl, ready.fresh _ (Nat.le_refl _)⟩
  have whole (dest : Operand) : ((instr dest).atLine line).written? = some dest := by
    have given : ((instr dest).atLine line).dest = some dest := written dest
    have kind : ((instr dest).atLine line).opcode = opcode := operation dest
    cases gives with
    | inl computes => rw [Instr.written?_of_computes (kind ▸ computes), given]
    | inr call => rw [Instr.written?_of_call (kind.trans call), given]
  have straight (dest : Operand) : ((instr dest).atLine line).opcode.isBoundary = false := by
    have kind : ((instr dest).atLine line).opcode = opcode := operation dest
    rw [kind]
    cases gives with
    | inl computes => exact Opcode.not_isBoundary_of_computes computes
    | inr call => rw [call]; rfl
  refine ⟨⟨⟨?_, inputs _, fun strictly => typed (ready.same ▸ strictly) _ rfl⟩, trivial⟩, ?_⟩
  · cases gives with
    | inl computes =>
      exact .computes _ ((congrArg Opcode.computes (operation _)).trans computes) (written _) fresh
    | inr call =>
      refine .calls ((operation _).trans call) fun dest given => ?_
      cases Option.some.inj ((written _).symm.trans given)
      exact fresh
  · have step : scan.run (Lowered.computed draft.context type line instr).code =
        scan.write (draft.context.newTemp type).1 :=
      Scan.after_of_written (straight _) (whole _)
    rw [step]
    exact ready.write type

/-- Arguments are passed. -/
theorem Ready.arguments {operands : List Operand} (position : Nat) (there : operands ⊆ known) :
    Continues place arrays strict scan (Lowered.argCode line position operands) draft known := by
  induction operands generalizing position with
  | nil => exact ⟨trivial, ready⟩
  | cons operand rest ih =>
    obtain ⟨first, others⟩ := cons_subset.mp there
    have one : Continues place arrays strict scan [(Instr.arg operand position).atLine line] draft
        known := by
      refine ready.idle (.passes rfl rfl rfl) ?_ (fun _ => rfl) rfl rfl (List.Subset.refl _)
      exact forall_mem_cons.mpr ⟨ready.known operand first,
        forall_mem_singleton.mpr fun _ => rfl⟩
    exact one.append (ih (position + 1) others)

/-- A value is computed. -/
theorem Evaluates.continues {lowered : Lowered}
    (step : Evaluates place draft.bindings strict words draft.context known lowered uses) :
    Continues place arrays strict scan lowered.code (draft.withContext lowered.context)
      (lowered.operand :: known) := by
  cases step with
  | literal value type kind => exact ⟨trivial, ready.add fun _ => kind⟩
  | @read line name word =>
    have regular := ready.read name
    cases stored : place.resolve draft.bindings name with
    | direct operand | array array element =>
      rw [stored] at regular
      exact ⟨trivial, ready.add regular⟩
    | shared global =>
      rw [stored] at regular
      refine ready.computed line (fun _ => rfl) (.inl rfl) (fun _ => rfl)
        (fun _ => forall_mem_singleton.mpr regular) fun _ dest same => ?_
      exact decide_eq_true same.symm
  | @unary line opcode type source isPure there typed =>
    have computes := Opcode.computes_of_isPure isPure
    refine ready.computed line (fun _ => rfl) (.inl computes) (fun _ => rfl) ?_ ?_
    · intro dest
      rw [Instr.inputs_of_computes computes]
      exact forall_mem_singleton.mpr (ready.known source there)
    · intro strictly dest same
      subst same
      exact typed (.inl strictly)
  | @binary line opcode type left right isBinary one two typed =>
    have computes := Opcode.computes_of_isBinary isBinary
    refine ready.computed line (fun _ => rfl) (.inl computes) (fun _ => rfl) ?_ ?_
    · intro dest
      rw [Instr.inputs_of_computes computes]
      exact forall_mem_cons.mpr ⟨ready.known left one,
        forall_mem_singleton.mpr (ready.known right two)⟩
    · intro strictly dest same
      subst same
      exact typed
  | string line literal =>
    have issued : Ready place arrays strict scan
        (draft.withContext (draft.context.intern literal).2) known := ready.issue rfl
    refine issued.computed line (fun _ => rfl) (.inl rfl) (fun _ => rfl) ?_ fun _ _ _ => rfl
    exact fun _ => forall_mem_singleton.mpr fun _ place spot => by cases spot
  | @element line array word index there =>
    refine ready.computed line (fun _ => rfl) (.inl rfl) (fun _ => rfl) ?_ fun _ _ _ => rfl
    exact fun _ => forall_mem_singleton.mpr (ready.known index there)
  | call line callee there =>
    have passed := ready.arguments line 0 there
    rw [Lowered.call]
    split
    · refine passed.append ?_
      have called : Continues place arrays strict _ [(Instr.call callee none).atLine line] draft
          known := passed.2.idle (.calls rfl (by intro dest given; cases given))
            (forall_mem_nil _) (fun _ => rfl) rfl rfl (List.Subset.refl _)
      exact ⟨called.1, called.2.add fun _ => rfl⟩
    · refine passed.append ?_
      exact passed.2.computed line (fun _ => rfl) (.inr rfl) (fun _ => rfl)
        (fun _ => forall_mem_nil _) fun _ _ _ => rfl

theorem Ready.store {target : Operand} (isVariable : target.isVariable = true)
    (there : value ∈ known) (typed : strict → value.type = target.type)
    (temps : final.context.temps = draft.context.temps) (own : Bindings.Own final.bindings)
    (whole : strict → ∀ name ∈ arrays, target.location? ≠ some (.var name))
    (kept : strict → ∀ name, (place.resolve final.bindings name).operand.location? =
      target.location? → (place.resolve final.bindings name).operand.type = target.type)
    (others : strict → ∀ name, (place.resolve final.bindings name).operand.location? ≠
      target.location? → (place.resolve final.bindings name).operand.Agrees scan) :
    Continues place arrays strict scan [(Instr.store target value).atLine line] final [] := by
  obtain ⟨spot, located, notTemp⟩ := Operand.exists_location?_of_isVariable isVariable
  refine ⟨⟨⟨.stores target rfl rfl isVariable, ?_, ?_⟩, trivial⟩, ?_⟩
  · exact forall_mem_singleton.mpr (ready.known value there)
  · exact fun strictly => decide_eq_true (typed (ready.same ▸ strictly))
  · have written : ((Instr.store target value).atLine line).written? = some target := rfl
    rw [Scan.run, foldl_cons, foldl_nil, Scan.after_of_written rfl written]
    refine ⟨ready.same, ?_, own, ?_, ?_, forall_mem_nil _⟩
    · intro number issued
      rw [Scan.types_write_of_ne]
      · exact ready.fresh number (temps ▸ issued)
      · exact fun same => notTemp _ (Option.some.inj (located.symm.trans same))
    · intro strictly name place named type written
      by_cases same : target.location? = some place
      · have equal : some target.type = some type := (if_pos same).symm.trans written
        rw [← Option.some.inj equal]
        exact (kept strictly name (named.trans same.symm)).symm
      · rw [Scan.types_write_of_ne same] at written
        exact others strictly name (fun equal => same (equal.symm.trans named)) place named type
          written
    · intro strictly name member
      rw [Scan.types_write_of_ne (whole strictly name member)]
      exact ready.unwritten strictly name member

/-- A name that is in force is assigned. -/
theorem Ready.assign {target : Operand}
    (stored : (place.resolve draft.bindings name).operand = target) (there : value ∈ known)
    (typed : strict → name ∉ arrays ∧ value.type = target.type) :
    Continues place arrays strict scan [(Instr.store target value).atLine line] draft [] := by
  have named := place.named_resolve ready.own name
  have isVariable := named.isVariable
  subst stored
  refine ready.store line isVariable there (fun strictly => (typed strictly).2) rfl ready.own ?_ ?_
    fun strictly other _ => ready.agrees strictly other
  · intro strictly other member spot
    have equal : other = name := named.name_eq spot
    exact (typed strictly).1 (equal ▸ member)
  · intro strictly other same
    obtain ⟨spot, located, _⟩ := Operand.exists_location?_of_isVariable isVariable
    rw [← (place.named_resolve ready.own other).name_eq (same.trans located), named.name_eq located]

/-- A variable is declared. -/
theorem Ready.declare (there : value ∈ known) (typed : strict → name ∉ arrays ∧ value.type = type) :
    Continues place arrays strict scan [(Instr.store (.var name type) value).atLine line]
      (draft.declare name (.var name type) (.direct (.var name type))) [] := by
  refine ready.store line rfl there (fun strictly => (typed strictly).2) rfl
    (forall_mem_cons.mpr ⟨.inl rfl, ready.own⟩) ?_ ?_ ?_
  · intro strictly other member same
    cases same
    exact (typed strictly).1 member
  · intro strictly other same
    rw [Draft.declare, place.resolve_cons] at same ⊢
    split at same
    · next equal => rw [if_pos equal]; rfl
    · next apart =>
        exact absurd ((place.named_resolve ready.own other).name_eq same).symm apart
  · intro strictly other differ
    rw [Draft.declare, place.resolve_cons] at differ ⊢
    split at differ
    · exact absurd rfl differ
    · next apart =>
        rw [if_neg apart]
        exact ready.agrees strictly other

/-- An array is declared. -/
theorem Ready.reserve (line size : Nat) (typed : strict → name ∈ arrays) :
    Continues place arrays strict scan [(Instr.allocArray (.var name type) size).atLine line]
      (draft.declare name (.var name type) (.array name type)) [] := by
  have reserved : Continues place arrays strict scan
      [(Instr.allocArray (.var name type) size).atLine line] draft known := by
    refine ready.idle (.reserves name type rfl rfl) ?_ (fun _ => rfl) rfl rfl (List.Subset.refl _)
    exact forall_mem_singleton.mpr fun _ => rfl
  refine ⟨reserved.1, reserved.2.same, reserved.2.fresh,
    forall_mem_cons.mpr ⟨.inl rfl, ready.own⟩, ?_, reserved.2.unwritten, forall_mem_nil _⟩
  intro strictly other
  rw [Draft.declare, place.resolve_cons]
  split
  · intro spot located kind written
    cases located
    have none := reserved.2.unwritten strictly name (typed strictly)
    rw [none] at written
    cases written
  · exact reserved.2.agrees strictly other

/-- A global gets its first value. -/
theorem Ready.begin (shared : place.isShared name = true) (there : value ∈ known)
    (typed : strict → value.type = type ∧
      ∀ global ∈ place.around.global? name, global.type = type) :
    Continues place arrays strict scan [(Instr.store (.global name type) value).atLine line] draft
      [] := by
  refine ready.store line rfl there (fun strictly => (typed strictly).1) rfl ready.own ?_ ?_
    fun strictly other _ => ready.agrees strictly other
  · intro strictly other member same
    cases same
  · intro strictly other same
    have equal : name = other := (place.named_resolve ready.own other).name_eq same
    subst equal
    obtain ⟨global, found⟩ := Option.isSome_iff_exists.mp shared
    have kind := (typed strictly).2 global found
    unfold Place.resolve at same ⊢
    cases bound : List.lookup name draft.bindings with
    | some storage =>
      rw [bound] at same
      rcases ready.own.owns bound with own | own <;> cases own.symm.trans same
    | none =>
      rw [found]
      show (Storage.ofGlobal global).operand.type = type
      rw [Storage.type_operand, Storage.type_ofGlobal, kind]

theorem Emits.continues
    (emits : Emits place arrays strict words draft known code uses final last) :
    Continues place arrays strict scan code final last := by
  cases emits with
  | forget within => exact ⟨trivial, ready.forget within⟩
  | evaluate step => exact step.continues ready
  | relabel temps strings => exact ⟨trivial, ready.issue temps⟩
  | store line word stored there widened typed =>
    refine ready.assign line ?_ there typed
    rcases stored with stored | stored <;> rw [stored] <;> rfl
  | declare line word there widened typed => exact ready.declare line there typed
  | reserve line size word typed => exact ready.reserve line size typed
  | @fill line array type index value word there there' widened =>
    refine ready.idle (.fills array index type rfl rfl) ?_ (fun _ => rfl) rfl rfl (nil_subset _)
    exact forall_mem_cons.mpr ⟨ready.known value there',
      forall_mem_singleton.mpr (ready.known index there)⟩
  | begin line word shared there widened typed => exact ready.begin line shared there typed
  | mark | jump =>
    exact ready.boundary (.plain rfl rfl fun _ => rfl) (forall_mem_nil _) (fun _ => rfl) rfl
  | enter | exit =>
    exact ready.idle (.plain rfl rfl nofun) (forall_mem_nil _) (fun _ => rfl) rfl rfl
      (nil_subset _)
  | @test line name condition there =>
    exact ready.boundary (.plain rfl rfl fun _ => rfl)
      (forall_mem_singleton.mpr (ready.known condition there)) (fun _ => rfl) rfl
  | @leave line value there widened =>
    refine ready.idle (.plain rfl rfl ?_) ?_ (fun _ => rfl) rfl rfl (nil_subset _)
    · intro label
      cases label
    · cases value with
      | none => exact forall_mem_nil _
      | some value => exact forall_mem_singleton.mpr (ready.known value (there value rfl))
  | @print line newline value there =>
    cases newline <;>
      exact ready.idle (.plain rfl rfl fun label => by cases label)
        (forall_mem_singleton.mpr (ready.known value there)) (fun _ => rfl) rfl rfl (nil_subset _)

end

theorem Writes.continues {place : Place} {arrays : List String} {draft final : Draft}
    {known last : List Operand}
    (writes : Writes place arrays strict words draft known code uses final last)
    (ready : Ready place arrays strict scan draft known) :
    Continues place arrays strict scan code final last := by
  induction writes generalizing scan with
  | refl draft known => exact ⟨trivial, ready⟩
  | step emits more ih =>
    have first := emits.continues ready
    exact first.append (ih first.2)

/-! ## Programs -/

/-- At the start of a function nothing is written. -/
theorem Origin.ready (around : Surroundings) (strict : Prop) (origin : Origin) (context : Context) :
    Ready (origin.place around) origin.arrays strict (.empty strict) (origin.draft context) [] where
  same := rfl
  fresh _ _ := rfl
  own := origin.own context
  agrees _ _ _ _ _ written := by cases written
  unwritten _ _ _ := rfl
  known := forall_mem_nil _

/-- The code of every function is regular. -/
theorem Derives.regular {around : Surroundings} {origin : Origin} {final : Draft}
    {function : Function} (derives : Derives around strict origin context final function) :
    Regular (.empty strict) function.code :=
  (derives.writes.continues (origin.ready around strict context)).1

theorem ofTree_sound {scopes : ScopeTrace} {suppress : Bool} {tree : Tree} {program : Program}
    (lowered : Program.ofTree scopes suppress tree = .ok (program, context))
    (typed : strict → tree.isTyped scopes = true) : program.Sound strict := by
  have regular := (ofTree_chain lowered typed).1.forall_mem Derives.regular
  have labelled := (ofTree_labelled lowered).1
  intro function member
  refine ⟨regular function member, labelled.distinct.sublist ?_, labelled.landing function member⟩
  exact (sublist_flatten_of_mem (mem_map_of_mem member)).filterMap Instr.mark?

/--
The optimizer changes nothing that is seen of the program of a well-typed tree: what is
shown up to a step of one program is shown by the other, and one ends where the other does.
-/
theorem optimize_alike {scopes : ScopeTrace} {suppress : Bool} {tree : Tree} {program : Program}
    {context : Context}
    (lowered : Program.ofTree scopes suppress tree = .ok (program, context))
    (typed : tree.isTyped scopes = true) {env : Env} (floats : env.floats = .binary64) :
    program.Alike env program.optimize.program := by
  obtain ⟨passes, same⟩ := optimize_program program
  rw [same]
  exact (ofTree_sound lowered fun _ => typed).alike_after floats passes

/-- A loop that fills an array, and calls a function with a factor of the top level. -/
def scaling : Tree where
  statements :=
    [.varDecl ⟨1, 1⟩ "factor" .float (some (.int ⟨1, 21⟩ 2)),
      .functionDecl ⟨2, 1⟩ "scale" [⟨"amount", .float⟩] .float
        [.assign ⟨3, 3⟩ "factor"
          (.binary ⟨3, 12⟩ .add (.name ⟨3, 12⟩ "factor") (.int ⟨3, 21⟩ 1)),
        .ret ⟨4, 3⟩
          (some (.binary ⟨4, 10⟩ .mul (.name ⟨4, 10⟩ "factor") (.name ⟨4, 19⟩ "amount")))],
      .arrayDecl ⟨6, 1⟩ "rounds" .int 2 [.int ⟨6, 19⟩ 7],
      .varDecl ⟨7, 1⟩ "round" .int none,
      .whileLoop ⟨8, 1⟩ (.binary ⟨8, 8⟩ .less (.name ⟨8, 8⟩ "round") (.int ⟨8, 16⟩ 2))
        [.indexAssign ⟨9, 3⟩ "rounds" (.name ⟨9, 10⟩ "round")
          (.binary ⟨9, 19⟩ .add (.int ⟨9, 19⟩ 1) (.int ⟨9, 23⟩ 2)),
        .expr ⟨10, 3⟩ (.binary ⟨10, 3⟩ .add (.int ⟨10, 3⟩ 1) (.int ⟨10, 7⟩ 2)),
        .println ⟨11, 3⟩
          (.call ⟨11, 11⟩ "scale" [.cast ⟨11, 17⟩ .float (.name ⟨11, 17⟩ "round")]),
        .assign ⟨12, 3⟩ "round"
          (.binary ⟨12, 11⟩ .add (.name ⟨12, 11⟩ "round") (.int ⟨12, 19⟩ 1))]]

theorem scaling_alike :
    scaling.isTyped .empty = true ∧
      ∃ program context, Program.ofTree .empty false scaling = .ok (program, context) ∧
        program.functions.map (fun function => function.code.length) = [20, 8] ∧
        program.optimize.program.functions.map (fun function => function.code.length) = [19, 6] ∧
        program.Alike zeroEnv program.optimize.program := by
  have typed : scaling.isTyped .empty = true := by decide +kernel
  have sizes : ((Program.ofTree .empty false scaling).map fun entry =>
      (entry.1.functions.map (fun function => function.code.length),
        entry.1.optimize.program.functions.map fun function => function.code.length)).toOption =
      some ([20, 8], [19, 6]) := by
    decide +kernel
  refine ⟨typed, ?_⟩
  cases lowered : Program.ofTree .empty false scaling with
  | error error =>
    rw [lowered] at sizes
    cases sizes
  | ok result =>
    rw [lowered] at sizes
    have both := Prod.mk.inj (Option.some.inj sizes)
    exact ⟨result.1, result.2, rfl, both.1, both.2, optimize_alike lowered typed rfl⟩

end ArmBackend.Ir
