import ArmBackend.Proofs.Lowering.Discipline

/-!
# Numbers of temporaries and strings

Code writes the temporaries that are issued for it, in the order of their numbers, and the
only labels in its operands are those of its string literals, one load for each literal.  So no
temporary is written twice in a program, and every string that is referred to has an entry.
-/

namespace ArmBackend.Ir

open List

/-- The name of a temporary. -/
def Operand.temp? : Operand → Option String
  | temp name _ => some name
  | _ => none

/-- The temporaries that code writes, in order. -/
def tempsOf (code : List Instr) : List String :=
  (code.filterMap Instr.written?).filterMap Operand.temp?

theorem tempsOf_append (first second : List Instr) :
    tempsOf (first ++ second) = tempsOf first ++ tempsOf second := by
  rw [tempsOf, filterMap_append, filterMap_append]
  rfl

theorem tempsOf_singleton (instr : Instr) :
    tempsOf [instr] = (instr.written?.bind Operand.temp?).toList := by
  rw [tempsOf, filterMap_cons]
  cases instr.written? with
  | none => rfl
  | some operand =>
    dsimp only [filterMap_nil]
    rw [filterMap_cons]
    cases same : operand.temp? <;> simp [same]

/-- No label occurs in the operand. -/
def Operand.Plain (operand : Operand) : Prop :=
  operand.labels = []

variable {context : Context} {instr : Instr} {operand : Operand} {strict : Prop} {name : String}
  {around : Surroundings}

/-- An operand that names a place has no labels. -/
theorem Operand.labels_of_location? {place : Location} (named : operand.location? = some place) :
    operand.labels = [] := by
  cases operand <;> first | rfl | cases named

theorem Storage.Named.labels {storage : Storage} (named : storage.Named name) :
    storage.operand.labels = [] := by
  obtain ⟨place, located⟩ := named.location?
  exact Operand.labels_of_location? located

theorem Operand.temp?_of_isVariable (isVariable : operand.isVariable = true) :
    operand.temp? = none := by
  cases operand <;> first | rfl | cases isVariable

/-- The name is the label of a string of the table. -/
def StringTable.Lists (table : StringTable) (name : String) : Prop :=
  ∃ id, id < table.size ∧ name = Operand.stringLabel id

/-- The instruction brings the address of a literal of the table into a temporary. -/
def StringTable.Loads (table : StringTable) (literal : String) (instr : Instr) : Prop :=
  ∃ id name type line, table.get? id = some literal ∧
    instr = (Instr.loadAddr (.temp name type) (.stringRef id)).atLine line

/-- A label occurs in the operands. -/
def Instr.refers (instr : Instr) : Bool :=
  !instr.references.isEmpty

/-- What is issued for code is what the code uses; its literals are interned and loaded in order. -/
structure Issues (before after : Context) (literals : List String) (code : List Instr) : Prop where
  temps : ∃ count, after.temps = before.temps + count ∧
    tempsOf code = (List.range' before.temps count).map tempName
  strings : after.strings = (before.strings.internAll literals).1
  loads : Forall₂ after.strings.Loads literals (code.filter Instr.refers)

namespace Issues

theorem nil {before after : Context} (temps : after.temps = before.temps)
    (strings : after.strings = before.strings) : Issues before after [] [] where
  temps := ⟨0, temps, rfl⟩
  strings := strings
  loads := .nil

section

variable {before between after : Context} {literals others : List String}
  {code first second : List Instr}

theorem kept (issues : Issues before after literals code) :
    before.strings.entries <+: after.strings.entries :=
  issues.strings ▸ before.strings.prefix_internAll literals

/-- The literals stay where they are while the table grows. -/
theorem loads_of_prefix (issues : Issues before after literals code) {table : StringTable}
    (kept : after.strings.entries <+: table.entries) :
    Forall₂ table.Loads literals (code.filter Instr.refers) := by
  refine issues.loads.imp ?_
  rintro literal instr ⟨id, name, type, line, found, same⟩
  exact ⟨id, name, type, line, StringTable.get?_of_prefix kept found, same⟩

/-- Every label is that of a literal. -/
theorem references (issues : Issues before after literals code) :
    ∀ name ∈ code.flatMap Instr.references, after.strings.Lists name := by
  intro name member
  obtain ⟨instr, inside, label⟩ := mem_flatMap.mp member
  have refers : instr ∈ code.filter Instr.refers :=
    mem_filter.mpr ⟨inside, by simp [Instr.refers, ne_nil_of_mem label]⟩
  have loads := issues.loads
  clear issues
  generalize code.filter Instr.refers = loading at refers loads
  induction loads with
  | nil => cases refers
  | cons here _ ih =>
    rcases mem_cons.mp refers with rfl | later
    · obtain ⟨id, temp, type, line, found, rfl⟩ := here
      cases mem_singleton.mp label
      exact ⟨id, (List.getElem?_eq_some_iff.mp found).1, rfl⟩
    · exact ih later

theorem append (one : Issues before between literals first)
    (two : Issues between after others second) :
    Issues before after (literals ++ others) (first ++ second) where
  temps := by
    obtain ⟨count, next, here⟩ := one.temps
    obtain ⟨more, last, later⟩ := two.temps
    refine ⟨count + more, by omega, ?_⟩
    rw [tempsOf_append, here, later, next, ← map_append, range'_append_1]
  strings := by rw [two.strings, one.strings, StringTable.internAll_append]
  loads := by
    rw [filter_append]
    exact rel_append (one.loads_of_prefix two.kept) two.loads

end

/-- No operand of the instruction has a label. -/
theorem filter_of_plain (plain : Every Operand.Plain instr.operands) :
    [instr].filter Instr.refers = [] := by
  have none : instr.references = [] := flatMap_eq_nil_iff.mpr plain
  simp [Instr.refers, none]

variable (context : Context)

/-- An instruction that needs nothing new. -/
theorem single (idle : instr.written?.bind Operand.temp? = none)
    (plain : Every Operand.Plain instr.operands) :
    Issues context context [] [instr] where
  temps := ⟨0, rfl, by rw [tempsOf_singleton, idle]; rfl⟩
  strings := rfl
  loads := by rw [filter_of_plain plain]; exact .nil

/-- A new temporary gets a result. -/
theorem computed (type : DataType) (line : Nat) {instr : Operand → Instr}
    (written : ∀ dest, (instr dest).written? = some dest)
    (sources : ∀ dest, Every Operand.Plain (instr dest).sources) :
    Issues context (Lowered.computed context type line instr).context []
      (Lowered.computed context type line instr).code where
  temps := by
    have whole (dest : Operand) : ((instr dest).atLine line).written? = some dest := written dest
    refine ⟨1, rfl, ?_⟩
    rw [Lowered.computed, tempsOf_singleton, whole]
    rfl
  strings := rfl
  loads := by
    have dest : (instr (context.newTemp type).1).dest = some (context.newTemp type).1 := by
      have whole := written (context.newTemp type).1
      unfold Instr.written? at whole
      split at whole
      · exact whole
      · cases whole
    have operands : ((instr (context.newTemp type).1).atLine line).operands =
        (context.newTemp type).1 :: (instr (context.newTemp type).1).sources := by
      rw [Instr.operands, Instr.atLine]
      dsimp only
      rw [dest]
      rfl
    rw [Lowered.computed, filter_of_plain (operands ▸ .cons rfl (sources _))]
    exact .nil

/-- A literal is interned and loaded. -/
theorem string (line : Nat) (literal : String) :
    Issues context (Lowered.string context line literal).context [literal]
      (Lowered.string context line literal).code where
  temps := ⟨1, rfl, rfl⟩
  strings := rfl
  loads := .cons ⟨_, _, _, line, context.strings.get?_intern literal, rfl⟩ .nil

end Issues

/-! ## Steps -/

theorem issues_argCode (context : Context) (line position : Nat) {operands : List Operand}
    (plain : Every Operand.Plain operands) :
    Issues context context [] (Lowered.argCode line position operands) := by
  induction operands generalizing position with
  | nil => exact .nil rfl rfl
  | cons operand rest ih =>
    obtain ⟨here, others⟩ := forall_mem_cons.mp plain
    have one : Issues context context [] [(Instr.arg operand position).atLine line] :=
      .single context rfl (.two here rfl)
    exact one.append (ih (position + 1) others)

section

variable {place : Place} {arrays : List String} {strict : Prop} {words : Vocabulary}
  {known : List Operand} {uses : Uses}

theorem Evaluates.issues {bindings : Bindings} {lowered : Lowered}
    (step : Evaluates place bindings strict words context known lowered uses) (own : bindings.Own)
    (plain : Every Operand.Plain known) :
    Issues context lowered.context uses.literals lowered.code ∧ lowered.operand.labels = [] := by
  cases step with
  | literal value type kind => exact ⟨.nil rfl rfl, rfl⟩
  | @read line name word =>
    have free := (place.named_resolve own name).labels
    cases stored : place.resolve bindings name with
    | direct operand =>
      rw [stored] at free
      exact ⟨.nil rfl rfl, free⟩
    | array array element => exact ⟨.nil rfl rfl, rfl⟩
    | shared global =>
      rw [stored] at free
      exact ⟨.computed _ _ _ (fun _ => rfl) fun _ => .one free, rfl⟩
  | @unary line opcode type source isPure there typed =>
    have computes := Opcode.computes_of_isPure isPure
    refine ⟨.computed _ _ _ (fun _ => Instr.written?_of_computes computes) fun _ => ?_, rfl⟩
    exact .one (plain source there)
  | @binary line opcode type left right isBinary one two typed =>
    have computes := Opcode.computes_of_isBinary isBinary
    refine ⟨.computed _ _ _ (fun _ => Instr.written?_of_computes computes) fun _ => ?_, rfl⟩
    exact .two (plain left one) (plain right two)
  | string line literal => exact ⟨.string context line literal, rfl⟩
  | @element line array word index there =>
    refine ⟨.computed _ _ _ (fun _ => rfl) fun _ => ?_, rfl⟩
    exact .one (plain index there)
  | call line callee there =>
    have passed := issues_argCode context line 0 (plain.subset there)
    rw [Lowered.call]
    split
    · refine ⟨passed.append (.single context rfl ?_), rfl⟩
      exact .nil
    · refine ⟨passed.append (.computed _ _ _ (fun _ => rfl) fun _ => ?_), rfl⟩
      exact .nil

variable {code : List Instr} {last : List Operand} {draft final : Draft}

theorem Emits.issues (emits : Emits place arrays strict words draft known code uses final last)
    (own : Bindings.Own draft.bindings) (plain : Every Operand.Plain known) :
    Issues draft.context final.context uses.literals code ∧ Every Operand.Plain last := by
  cases emits with
  | forget within => exact ⟨.nil rfl rfl, plain.subset within⟩
  | evaluate step =>
    obtain ⟨issues, free⟩ := step.issues own plain
    exact ⟨issues, plain.cons free⟩
  | relabel temps strings => exact ⟨.nil temps strings, plain⟩
  | @store line name target value word stored there widened typed =>
    have named := place.named_resolve own name
    have same : (place.resolve draft.bindings name).operand = target := by
      rcases stored with stored | stored <;> rw [stored] <;> rfl
    rw [same.symm]
    refine ⟨.single _ (Operand.temp?_of_isVariable named.isVariable) ?_, .nil⟩
    exact .two named.labels (plain value there)
  | @declare line name type value _ there | @begin line name type value _ _ there =>
    refine ⟨.single _ rfl ?_, .nil⟩
    exact .two rfl (plain value there)
  | reserve line size word typed =>
    refine ⟨.single _ rfl ?_, .nil⟩
    exact .two rfl rfl
  | @fill line array type index value word there there' widened =>
    refine ⟨.single _ rfl ?_, .nil⟩
    exact .two (plain index there) (plain value there')
  | mark | jump | enter | exit => exact ⟨.single _ rfl .nil, .nil⟩
  | @test line name condition there =>
    exact ⟨.single _ rfl (.one (plain condition there)), .nil⟩
  | @leave line value there widened =>
    refine ⟨.single _ rfl ?_, .nil⟩
    cases value with
    | none => exact .nil
    | some value => exact .one (plain value (there value rfl))
  | @print line newline value there =>
    refine ⟨.single _ ?_ (.one (plain value there)), .nil⟩
    cases newline <;> rfl

/-- Written code uses what is issued for it. -/
theorem Writes.issues (writes : Writes place arrays strict words draft known code uses final last)
    (own : Bindings.Own draft.bindings) (plain : Every Operand.Plain known) :
    Issues draft.context final.context uses.literals code := by
  induction writes with
  | refl draft known => exact .nil rfl rfl
  | step emits more ih =>
    obtain ⟨issues, plain⟩ := emits.issues own plain
    exact issues.append (ih (emits.own own) plain)

end

/-! ## Programs -/

theorem Derives.issues {origin : Origin} {final : Draft} {function : Function}
    (derives : Derives around strict origin context final function) :
    Issues context final.context origin.literals function.code := by
  have start : (origin.draft context).context = context := by cases origin <;> rfl
  have issues := derives.writes.issues (origin.own context) .nil
  rwa [start] at issues

variable {after : Context} {origins : List Origin} {functions : List Function}

/-- Numbers go on from function to function. -/
theorem Chain.issues (chain : Chain around strict context origins functions after) :
    Issues context after (origins.flatMap Origin.literals)
      (functions.flatMap Function.code) := by
  induction chain with
  | nil => exact .nil rfl rfl
  | cons derives _ ih =>
    rw [flatMap_cons, flatMap_cons]
    exact derives.issues.append ih

/-- In every function the literals of its source are loaded, from the table at the end. -/
theorem Chain.loads (chain : Chain around strict context origins functions after) :
    Forall₂ (fun origin function =>
      Forall₂ after.strings.Loads origin.literals (function.code.filter Instr.refers))
      origins functions := by
  induction chain with
  | nil => exact .nil
  | cons derives more ih => exact .cons (derives.issues.loads_of_prefix more.issues.kept) ih

/-- No temporary is written twice. -/
theorem Issues.nodup {before : Context} {literals : List String} {code : List Instr}
    (issues : Issues before after literals code) : (tempsOf code).Nodup := by
  obtain ⟨count, _, same⟩ := issues.temps
  rw [same]
  exact List.Nodup.map (fun _ _ => tempName_injective) (nodup_range' 1)

end ArmBackend.Ir
