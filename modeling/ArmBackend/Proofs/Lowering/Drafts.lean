import ArmBackend.Proofs.Lowering.Forms
import ArmBackend.Proofs.Lowering.Shape
import ArmBackend.Proofs.Source.Typing
import Mathlib.Tactic.Tauto

/-!
# What statements leave behind

The code of a statement has the labels that were issued for it, each once, and its
own arrays only.  Every jump in it goes to one of these labels, or to an end of the loop
around it.  It binds the names that the statement declares, in front of those
that were bound before.
-/

namespace ArmBackend.Ir

open List

open Source (Loop)

/-- The labels in the code are different labels with numbers in the range. -/
def MarksIn (low high : Nat) (code : List Instr) : Prop :=
  ∃ numbers : List Nat, (marksOf code).Perm (numbers.map labelName) ∧ numbers.Nodup ∧
    ∀ number ∈ numbers, low ≤ number ∧ number < high

namespace MarksIn

variable {code : List Instr} {low high : Nat}

theorem of_none (none : marksOf code = []) (low high : Nat) :
    MarksIn low high code := by
  refine ⟨[], none ▸ List.Perm.refl _, nodup_nil, ?_⟩
  intro number member
  cases member

theorem around {least : Nat} {inner : List Instr} (marks : MarksIn low high inner)
    {extra : List Nat} (distinct : extra.Nodup)
    (below : ∀ number ∈ extra, least ≤ number ∧ number < low) (le : least ≤ low)
    (le' : low ≤ high) (same : (marksOf code).Perm (extra.map labelName ++ marksOf inner)) :
    MarksIn least high code := by
  obtain ⟨numbers, innerSame, innerDistinct, within⟩ := marks
  refine ⟨extra ++ numbers, ?_, ?_, ?_⟩
  · rw [map_append]
    exact same.trans (innerSame.append_left _)
  · refine nodup_append.mpr ⟨distinct, innerDistinct, ?_⟩
    intro left inExtra right inNumbers equal
    have := (below left inExtra).2
    have := (within right inNumbers).1
    omega
  · intro number member
    cases mem_append.mp member with
    | inl inExtra =>
      have := below number inExtra
      omega
    | inr inNumbers =>
      have := within number inNumbers
      omega

theorem append {middle : Nat} {first second : List Instr}
    (one : MarksIn low middle first) (two : MarksIn middle high second) (le : low ≤ middle)
    (le' : middle ≤ high) : MarksIn low high (first ++ second) := by
  obtain ⟨numbers, same, distinct, within⟩ := one
  refine two.around distinct within le le' ?_
  rw [marksOf_append]
  exact same.append_right _

theorem nodup (marks : MarksIn low high code) :
    (marksOf code).Nodup := by
  obtain ⟨numbers, same, distinct, _⟩ := marks
  refine same.nodup_iff.mpr (pairwise_map.mpr ?_)
  exact distinct.imp fun differ equal => differ (labelName_injective equal)

end MarksIn

/-- The labels that statements may jump to out of their code. -/
def Context.exits (context : Context) : List String :=
  context.breakTarget?.toList ++ context.continueTarget?.toList

/-- Every jump in the code goes to a label in it, or to one of the exits. -/
def LandsIn (exits : List String) (code : List Instr) : Prop :=
  jumpTargets code ⊆ marksOf code ++ exits

namespace LandsIn

variable {exits : List String} {code : List Instr}

theorem of_simple (simple : ∀ instr ∈ code, instr.isSimple = true) : LandsIn exits code := by
  rw [LandsIn, jumpTargets_of_simple simple]
  exact nil_subset _

theorem append {others : List Instr} (one : LandsIn exits code) (two : LandsIn exits others) :
    LandsIn exits (code ++ others) := by
  intro name member
  rw [marksOf_append, append_assoc]
  rcases mem_append.mp (jumpTargets_append .. ▸ member) with member | member
  · exact (mem_append.mp (one member)).elim (mem_append_left _)
      fun out => mem_append_right _ (mem_append_right _ out)
  · exact mem_append_right _ (two member)

theorem around {inner : List Instr} {extra outer : List String} (lands : LandsIn exits inner)
    (same : (marksOf code).Perm (extra ++ marksOf inner))
    (targets : jumpTargets code ⊆ extra ++ jumpTargets inner) (out : exits ⊆ extra ++ outer) :
    LandsIn outer code := by
  intro name member
  have marked (inside : name ∈ extra ++ marksOf inner) : name ∈ marksOf code ++ outer :=
    mem_append_left _ (same.mem_iff.mpr inside)
  rcases mem_append.mp (targets member) with here | inside
  · exact marked (mem_append_left _ here)
  · rcases mem_append.mp (lands inside) with here | leaves
    · exact marked (mem_append_right _ here)
    · exact (mem_append.mp (out leaves)).elim (marked ∘ mem_append_left _)
        (mem_append_right _)

end LandsIn

/-- What the code of statements with the declarations leaves behind. -/
structure Draft.Grows (before : Draft) (declared : Bindings) (code : List Instr)
    (after : Draft) : Prop where
  issued : before.context.Extends after.context
  loops : after.context.loops = before.context.loops
  bindings : after.bindings = declared.reverse ++ before.bindings
  marks : MarksIn before.context.labels after.context.labels code
  owned : ∀ instr ∈ arraysOf code, ∀ array, instr.defined = some (.var array) →
    array ∈ declared.map Prod.fst

variable {declared : Bindings} {count : Nat}

namespace Draft.Grows

theorem refl (draft : Draft) : draft.Grows [] [] draft where
  issued := .refl _
  loops := rfl
  bindings := rfl
  marks := .of_none rfl _ _
  owned := by intro instr member; cases member

variable {before after : Draft} {code : List Instr}

/-- The old bindings are the last ones. -/
theorem suffix (grows : before.Grows declared code after) :
    before.bindings <:+ after.bindings :=
  ⟨_, grows.bindings.symm⟩

/-- Plain code that declares nothing. -/
theorem plain {context : Context} (issued : before.context.Extends context)
    (loops : context.loops = before.context.loops) (plain : ∀ instr ∈ code, instr.isPlain = true) :
    before.Grows [] code (before.withContext context) where
  issued := issued
  loops := loops
  bindings := rfl
  marks := .of_none (marksOf_of_plain plain) _ _
  owned instr member := by
    rw [arraysOf_of_plain plain] at member
    cases member

theorem append {between : Draft} {others : Bindings} {first second : List Instr}
    (one : before.Grows declared first between) (two : between.Grows others second after) :
    before.Grows (declared ++ others) (first ++ second) after where
  issued := one.issued.trans two.issued
  loops := two.loops.trans one.loops
  bindings := by rw [two.bindings, one.bindings, reverse_append, append_assoc]
  marks := one.marks.append two.marks one.issued.labels two.issued.labels
  owned instr member array owns := by
    rw [map_append]
    rw [arraysOf_append] at member
    cases mem_append.mp member with
    | inl inFirst => exact mem_append_left _ (one.owned instr inFirst array owns)
    | inr inSecond => exact mem_append_right _ (two.owned instr inSecond array owns)

theorem labelled {inner : List Instr}
    (grows : (before.issueLabels count).Grows declared inner after) (same : (marksOf code).Perm
      ((List.range' before.context.labels count).map labelName ++ marksOf inner))
    (owned : arraysOf code = arraysOf inner) :
    before.Grows declared code after where
  issued := ⟨grows.issued.temps, Nat.le_trans (Nat.le_add_right _ count) grows.issued.labels,
    grows.issued.strings⟩
  loops := grows.loops
  bindings := grows.bindings
  marks := grows.marks.around nodup_range' (fun _ member => mem_range'_1.mp member)
    (Nat.le_add_right _ _) grows.issued.labels same
  owned := by
    rw [owned]
    exact grows.owned

theorem inLoop {labels : LoopLabels} (grows : (before.enterLoop labels).Grows declared code after) :
    before.Grows declared code after.exitLoop where
  issued := ⟨grows.issued.temps, grows.issued.labels, grows.issued.strings⟩
  loops := congrArg List.tail grows.loops
  bindings := grows.bindings
  marks := grows.marks
  owned := grows.owned

end Draft.Grows

/-- The code also has the labels that it jumps to, but for those of the loop around it. -/
structure Draft.Lowers (before : Draft) (declared : Bindings) (code : List Instr)
    (after : Draft) : Prop extends before.Grows declared code after where
  lands : LandsIn before.context.exits code

namespace Draft.Lowers

theorem refl (draft : Draft) : draft.Lowers [] [] draft :=
  ⟨.refl draft, nil_subset _⟩

variable {before after : Draft} {code : List Instr}

/-- Code that declares nothing. -/
theorem of_tame {context : Context} (tame : Tame before.context code context) :
    before.Lowers [] code (before.withContext context) :=
  ⟨.plain tame.issued tame.loops tame.plain, .of_simple tame.simple⟩

theorem append {between : Draft} {others : Bindings} {first second : List Instr}
    (one : before.Lowers declared first between) (two : between.Lowers others second after) :
    before.Lowers (declared ++ others) (first ++ second) after := by
  have lands := two.lands
  rw [Context.exits, Context.breakTarget?, Context.continueTarget?, one.loops] at lands
  exact ⟨one.toGrows.append two.toGrows, one.lands.append lands⟩

theorem declare (before : Draft) {name : String} (slot : Operand)
    {storage : Storage} (unmarked : marksOf code = []) (straight : jumpTargets code = [])
    (owned : ∀ instr ∈ arraysOf code, ∀ array, instr.defined = some (.var array) → array = name) :
    before.Lowers [(name, storage)] code (before.declare name slot storage) where
  issued := .refl _
  loops := rfl
  bindings := rfl
  marks := .of_none unmarked _ _
  owned instr member array owns := by
    rw [owned instr member array owns]
    exact mem_singleton.mpr rfl
  lands := by
    rw [LandsIn, straight]
    exact nil_subset _

theorem labelled {exits : List String} {inner : List Instr}
    (grows : (before.issueLabels count).Grows declared inner after)
    (lands : LandsIn exits inner) (same : (marksOf code).Perm
      ((List.range' before.context.labels count).map labelName ++ marksOf inner))
    (owned : arraysOf code = arraysOf inner) (targets : jumpTargets code ⊆
      (List.range' before.context.labels count).map labelName ++ jumpTargets inner)
    (out : exits ⊆ (List.range' before.context.labels count).map labelName ++
      before.context.exits) : before.Lowers declared code after :=
  ⟨grows.labelled same owned, lands.around same targets out⟩

end Draft.Lowers

section

variable (place : Place)

/-- The code of a value and a store. -/
theorem lowerStore_tame {context : Context} {value : Lowered} (tame : value.Tame context)
    (line : Nat) (target : Operand) :
    Tame context (lowerStore line target value).1 (lowerStore line target value).2 :=
  (tame.coerced line target.type).append (.single _ rfl)

theorem lowerInitial_tame (draft : Draft) (type : DataType) (initial : Option Expr) :
    (lowerInitial place draft type initial).Tame draft.context := by
  cases initial with
  | none => exact .value _ _
  | some expr => exact lowerExpr_tame place _ _ expr

/-- The code that fills an array. -/
theorem lowerElements_tame (bindings : Bindings) (line : Nat) (array : String) (type : DataType)
    (exprs : List Expr) (index : Nat) (context : Context) :
    Tame context (lowerElements place bindings line array type index context exprs).1
      (lowerElements place bindings line array type index context exprs).2 := by
  induction exprs generalizing index context with
  | nil => exact .nil context
  | cons expr rest ih =>
    have value := (lowerExpr_tame place bindings context expr).coerced line type
    exact value.append (.cons rfl (ih (index + 1) _))

variable {draft final : Draft}

theorem Draft.Lowers.value {value : Lowered} (tame : value.Tame draft.context)
    {last : Instr} (simple : last.isSimple = true) :
    draft.Lowers [] (value.code ++ [last]) (draft.withContext value.context) :=
  .of_tame (tame.append (.single _ simple))

/-- The test of a loop, which jumps out of it. -/
theorem lowerExit_grows (draft : Draft) (line : Nat) (target : String)
    (condition : Option Expr) :
    draft.Grows [] (lowerExit place draft line target condition).1
        (lowerExit place draft line target condition).2 ∧
      jumpTargets (lowerExit place draft line target condition).1 ⊆ [target] := by
  cases condition with
  | none => exact ⟨.refl draft, nil_subset _⟩
  | some expr =>
    have tame := lowerExpr_tame place draft.bindings draft.context expr
    constructor
    · refine .plain tame.issued tame.loops (forall_mem_append.mpr ⟨tame.plain, ?_⟩)
      exact forall_mem_singleton.mpr rfl
    · rw [lowerExit, jumpTargets_append, jumpTargets_of_simple tame.simple]
      exact List.Subset.refl _

theorem lowerVarDecl_lowers (draft : Draft) (line : Nat) (name : String) (type : DataType)
    (initial : Option Expr) :
    draft.Lowers [(name, .direct (.var name type))]
      (lowerVarDecl place draft line name type initial).1
      (lowerVarDecl place draft line name type initial).2 := by
  have stored := lowerStore_tame (lowerInitial_tame place draft type initial) line (.var name type)
  have declared (draft : Draft) : draft.Lowers [(name, .direct (.var name type))] []
      (draft.declare name (.var name type) (.direct (.var name type))) :=
    .declare draft _ rfl rfl (by intro instr member; cases member)
  have both := (Draft.Lowers.of_tame stored).append (declared _)
  simp only [append_nil] at both
  exact both

theorem lowerArrayDecl_lowers (draft : Draft) (line : Nat) (name : String) (type : DataType)
    (size : Nat) (elements : List Expr) :
    draft.Lowers [(name, .array name type)]
      (lowerArrayDecl place draft line name type size elements).1
      (lowerArrayDecl place draft line name type size elements).2 := by
  have filled := lowerElements_tame place
    ((name, Storage.array name type) :: draft.bindings) line name type elements 0 draft.context
  have reserved : draft.Lowers [(name, .array name type)]
      [(Instr.allocArray (.var name type) size).atLine line]
      (draft.declare name (.var name type) (.array name type)) := by
    refine .declare draft _ rfl rfl ?_
    intro instr member array owns
    cases mem_singleton.mp member
    exact (Location.var.inj (Option.some.inj owns)).symm
  exact reserved.append (.of_tame filled)

variable {misuse : Misuse} {target : Option String}

theorem lowerLoopJump_lowers {position : Position} {code : List Instr}
    (lowered : lowerLoopJump draft position misuse target = .ok (code, final))
    (exit : target.toList ⊆ draft.context.exits) : draft.Lowers [] code final := by
  cases target with
  | none => cases lowered
  | some label =>
    cases lowered
    exact ⟨.plain (.refl _) rfl (forall_mem_singleton.mpr rfl), exit⟩

/-- The body of a loop and what stands around it. -/
theorem LoopCode.grows {place : Place} {after : Draft} {line : Nat}
    {labels : LoopLabels} {loop : Loop} {bodyCode updateCode : List Instr}
    {more : Bindings}
    (body : ((testCode place draft line labels loop).2.enterLoop labels).Lowers declared
      bodyCode after) (update : after.exitLoop.Lowers more updateCode final) :
    draft.Grows (declared ++ more)
        ((testCode place draft line labels loop).1 ++ (bodyCode ++ updateCode)) final ∧
      LandsIn (labels.breakTo :: labels.continueTo :: draft.context.exits)
        ((testCode place draft line labels loop).1 ++ (bodyCode ++ updateCode)) := by
  obtain ⟨test, leaves⟩ := lowerExit_grows place draft line labels.breakTo loop.condition
  have loops : after.exitLoop.context.loops = draft.context.loops :=
    body.toGrows.inLoop.loops.trans test.loops
  have exits : after.exitLoop.context.exits = draft.context.exits := by
    rw [Context.exits, Context.breakTarget?, Context.continueTarget?, loops]
    rfl
  refine ⟨test.append (body.toGrows.inLoop.append update.toGrows), fun name member => ?_⟩
  have inside : jumpTargets bodyCode ⊆ marksOf bodyCode ++ [labels.breakTo, labels.continueTo] :=
    body.lands
  have behind := exits ▸ update.lands
  simp only [jumpTargets_append, marksOf_append, mem_append, mem_cons] at member ⊢
  rcases member with member | member | member
  · exact .inr (.inl (mem_singleton.mp (leaves member)))
  · have := inside member
    simp only [mem_append, mem_cons, not_mem_nil] at this
    tauto
  · have := behind member
    simp only [mem_append] at this
    tauto

mutual

theorem lowerStmt_lowers (draft final : Draft) (code : List Instr) : (stmt : Stmt) →
    (lowered : lowerStmt place draft stmt = .ok (code, final)) →
    draft.Lowers (stmt.gather fun stmt => stmt.binding?.toList) code final
  | .varDecl position name type initial, lowered => by
    cases lowered
    exact lowerVarDecl_lowers place draft position.line name type initial
  | .arrayDecl position name type size elements, lowered => by
    cases lowered
    exact lowerArrayDecl_lowers place draft position.line name type size elements
  | .assign position name value, lowered => by
    obtain ⟨target, _, rfl, rfl⟩ := lowerAssign_ok lowered
    exact .of_tame (lowerStore_tame (lowerExpr_tame ..) position.line target)
  | .indexAssign position array index value, lowered => by
    cases lowered
    have one := lowerExpr_tame place draft.bindings draft.context index
    have two := (lowerExpr_tame place draft.bindings
      (lowerExpr place draft.bindings draft.context index).context value).coerced position.line
      (place.resolve draft.bindings array).type
    exact .value (one.following two) rfl
  | .ifElse position condition thenBranch none, lowered => by
    obtain ⟨thenCode, inner, same⟩ := lowerStmt_if lowered
    have before := Draft.Lowers.of_tame (lowerExpr_tame place draft.bindings draft.context condition)
    have lowers := lowerStmts_lowers _ _ _ thenBranch inner
    subst same
    simp only [Stmt.gather, append_nil]
    refine before.append (.labelled lowers.toGrows lowers.lands ?_ (by simp) ?_
      (subset_append_right _ _))
    · rw [(parts_jumpIf ..).1, marksOf_append]
      exact perm_append_comm
    · simp [List.range', Draft.withContext]
  | .ifElse position condition thenBranch (some elseBranch), lowered => by
    obtain ⟨thenCode, elseCode, between, one, two, same⟩ := lowerStmt_ifElse lowered
    have before := Draft.Lowers.of_tame (lowerExpr_tame place draft.bindings draft.context condition)
    have lowers := (lowerStmts_lowers _ _ _ thenBranch one).append
      (lowerStmts_lowers _ _ _ elseBranch two)
    subst same
    rw [Stmt.gather]
    refine before.append (.labelled lowers.toGrows lowers.lands ?_ (by simp) ?_
      (subset_append_right _ _))
    · refine perm_iff_count.mpr fun name => ?_
      simp [count_cons, List.range', Draft.withContext]
      omega
    · intro name member
      simp [List.range', Draft.withContext] at member ⊢
      tauto
  | .whileLoop position condition body, lowered => by
    obtain ⟨bodyCode, after, parts, same⟩ := lowerStmt_while lowered
    obtain ⟨grows, lands⟩ := LoopCode.grows (lowerStmts_lowers _ _ _ body parts.body) (.refl _)
    simp only [append_nil] at grows lands
    cases parts.update
    subst same
    rw [Stmt.gather]
    refine .labelled grows lands ?_ (by simp) ?_ ?_
    · refine perm_iff_count.mpr fun name => ?_
      simp [count_cons, List.range']
      omega
    · intro name member
      simp [List.range'] at member ⊢
      tauto
    · intro name member
      simp [List.range'] at member ⊢
      tauto
  | .forLoop position start condition update body, lowered => by
    obtain ⟨startCode, begun, bodyCode, updateCode, after, first, parts, same⟩ :=
      lowerStmt_for lowered
    have before := lowerOption_lowers _ _ _ start first
    have behind := lowerOption_lowers _ _ _ update parts.update
    obtain ⟨grows, lands⟩ := LoopCode.grows (lowerStmts_lowers _ _ _ body parts.body) behind
    subst same
    rw [Stmt.gather]
    refine before.append (.labelled grows lands ?_ (by simp) ?_ ?_)
    · refine perm_iff_count.mpr fun name => ?_
      simp [count_cons, List.range', Nat.add_assoc]
    · intro name member
      simp [List.range'] at member ⊢
      tauto
    · intro name member
      simp [List.range'] at member ⊢
      tauto
  | .block _ body, lowered => lowerStmts_lowers draft final code body lowered
  | .functionDecl _ _ _ _ _, lowered => by
    cases lowered
    exact .refl draft
  | .ret position none, lowered => by
    cases lowered
    exact .value (.value draft.context (.int 0)) rfl
  | .ret position (some expr), lowered => by
    cases lowered
    exact .value ((lowerExpr_tame place _ _ expr).coerced _ _) rfl
  | .print position value, lowered | .println position value, lowered => by
    cases lowered
    exact .value (lowerExpr_tame place _ _ value) rfl
  | .expr _ value, lowered => by
    cases lowered
    exact .of_tame (lowerExpr_tame place draft.bindings draft.context value)
  | .breakLoop position, lowered => by
    rw [lowerStmt] at lowered
    exact lowerLoopJump_lowers lowered (subset_append_left _ _)
  | .continueLoop position, lowered => by
    rw [lowerStmt] at lowered
    exact lowerLoopJump_lowers lowered (subset_append_right _ _)

theorem lowerOption_lowers (draft final : Draft) (code : List Instr) : (stmt : Option Stmt) →
    (lowered : lowerOptional place draft stmt = .ok (code, final)) →
    draft.Lowers (Stmt.gatherOption (fun stmt => stmt.binding?.toList) stmt) code final
  | none, lowered => by
    cases lowered
    exact .refl draft
  | some stmt, lowered => lowerStmt_lowers draft final code stmt lowered

theorem lowerStmts_lowers (draft final : Draft) (code : List Instr) : (stmts : List Stmt) →
    (lowered : lowerStmts place draft stmts = .ok (code, final)) →
    draft.Lowers (Stmt.gatherList (fun stmt => stmt.binding?.toList) stmts) code final
  | [], lowered => by
    cases lowered
    exact .refl draft
  | stmt :: rest, lowered => by
    obtain ⟨first, others, between, one, two, rfl⟩ := lowerStmts_cons lowered
    exact (lowerStmt_lowers draft between first stmt one).append
      (lowerStmts_lowers between final others rest two)

end

end

end ArmBackend.Ir
