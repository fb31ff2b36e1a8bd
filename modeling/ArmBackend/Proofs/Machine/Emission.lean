import ArmBackend.Machine.OfProgram
import ArmBackend.Proofs.Machine.Kinds
import ArmBackend.Proofs.Machine.Labels
import ArmBackend.Proofs.Passes.Sweeps

/-!
# What emission emits

All code that brings values from place to place and computes with them is inner code.
Labels and branches come from the instructions that are labels and jumps, one for one.
-/

namespace ArmBackend.Machine

open List

open ArmBackend.Frame

variable {assembled : Function} {function : Ir.Function} {globals : List Ir.Global}
  {instrs : List Ir.Instr} {α : Type}

namespace Emit

/-- Whatever the step emits is of the kind. -/
def Yields {α : Type} (step : Emit α) (kind : List Instr → Prop) : Prop :=
  ∀ free emitted, step free = .ok emitted → kind emitted.code

variable {kind : List Instr → Prop} {β : Type}

theorem Yields.done (empty : kind []) (value : α) : (Emit.done value).Yields kind := by
  rintro free _ ⟨⟩
  exact empty

theorem Yields.code {instrs : List Instr} (holds : kind instrs) :
    (Emit.code instrs).Yields kind := by
  rintro free _ ⟨⟩
  exact holds

theorem Yields.fail (cause : Cause) : (Emit.fail cause : Emit α).Yields kind := by
  rintro free _ ⟨⟩

theorem Yields.required (empty : kind []) (part : Option α) : (Emit.required part).Yields kind := by
  cases part with
  | none => exact .fail _
  | some value => exact .done empty value

theorem Yields.bind {first : Emit α} {next : α → Emit β} {kind' both : List Instr → Prop}
    (one : first.Yields kind) (two : ∀ value, (next value).Yields kind')
    (join : ∀ code code', kind code → kind' code' → both (code ++ code')) :
    (first >>= next).Yields both := by
  intro free emitted done
  obtain ⟨before, after, head, tail, rfl⟩ := bind_ok done
  exact join _ _ (one _ _ head) (two _ _ _ tail)

theorem Yields.part {part : Option α} {next : α → Emit β}
    (holds : ∀ value, part = some value → (next value).Yields kind) :
    (Emit.required part >>= next).Yields kind := by
  intro free emitted done
  obtain ⟨before, after, head, tail, rfl⟩ := bind_ok done
  cases part with
  | none => cases head
  | some value =>
    cases head
    exact holds value rfl _ _ tail

/-- The step emits inner code. -/
abbrev IsInner {α : Type} (step : Emit α) : Prop :=
  step.Yields Inner

theorem Emits.isInner {step : Emit α} {proper : α → Prop}
    (emits : step.Emits (fun _ => True) (·.isBoundary = false) proper) : step.IsInner :=
  fun free emitted done => (emits free emitted (fun _ _ => trivial) done).2.1

end Emit

namespace Site

variable (site : Site)

theorem moves_inner : site.Moves (fun _ => True) (·.isBoundary = false) where
  spare _ _ := trivial
  home _ := trivial
  bare {instr} bare _ := by cases instr <;> first | rfl | cases bare
  const _ sets := by cases sets <;> rfl
  ldur _ _ := rfl
  stur _ := rfl
  ldr _ _ := rfl
  str _ := rfl
  array _ _ _ := by split <;> rfl

theorem computes_inner (source : Ir.Instr) :
    site.Computes source (fun _ => True) (·.isBoundary = false) where
  toMoves := site.moves_inner
  literal _ _ form _ := by cases form <;> rfl
  truth _ := rfl

theorem isInner_loadInto (dest : Reg) (operand : Ir.Operand) :
    (site.loadInto dest operand).IsInner :=
  (site.moves_inner.emits_loadInto trivial operand).isInner

theorem isInner_load (operand : Ir.Operand) : (site.load operand).IsInner :=
  (site.moves_inner.emits_load operand).isInner

variable (pending : Pending)

theorem isInner_stackArguments : (site.stackArguments pending).IsInner :=
  (site.moves_inner.emits_stackArguments fun _ _ _ _ _ => rfl).isInner

theorem isInner_registerArguments : (site.registerArguments pending).IsInner :=
  (site.moves_inner.emits_registerArguments pending).isInner

theorem isInner_takeResult (dest : Option Ir.Operand) : (site.takeResult dest).IsInner :=
  (site.moves_inner.emits_takeResult dest).isInner

theorem isInner_giveResult (value : Option Ir.Operand) : (site.giveResult value).IsInner :=
  (site.moves_inner.emits_giveResult value).isInner

theorem isInner_select {instr : Ir.Instr}
    (gives : instr.opcode.givesValue = true) : (site.select pending instr).IsInner :=
  ((site.computes_inner instr).emits_select pending gives).isInner

end Site

theorem inner_reserve (bytes : Nat) : Inner (reserve bytes) :=
  (Site.moves_inner ⟨{}, []⟩).reserve fun _ _ => rfl

theorem inner_release (bytes : Nat) : Inner (release bytes) :=
  (Site.moves_inner ⟨{}, []⟩).release fun _ _ => rfl

theorem inner_prologue (layout : Layout) : Inner layout.prologue :=
  (Site.moves_inner ⟨layout, []⟩).prologue rfl (fun _ _ => rfl) fun _ _ => rfl

/-! ## Edges of selected code -/

/-- The labels and targets of the code, and how often it returns.  In front of each return the
registers are restored. -/
structure HasEdges (layout : Layout) (labels targets : List String) (returns : Nat)
    (code : List Instr) : Prop where
  labels : labelsOf code = labels
  targets : targetsOf code = targets
  returns : code.count .ret = returns
  restored : ∀ before after, code = before ++ .ret :: after →
    layout.epilogue <:+ before ++ [.ret]

section

variable {layout : Layout} {code : List Instr} {labels targets : List String} {returns : Nat}

theorem hasEdges_of_notMem (none : .ret ∉ code) (marks : labelsOf code = labels)
    (goes : targetsOf code = targets) : HasEdges layout labels targets 0 code := by
  refine ⟨marks, goes, count_eq_zero.mpr none, ?_⟩
  rintro before after rfl
  exact absurd (mem_append_right before (mem_cons_self ..)) none

/-- A line that is no return. -/
theorem hasEdges_single {instr : Instr} (stays : .ret ≠ instr) (marks : labelsOf [instr] = labels)
    (goes : targetsOf [instr] = targets) : HasEdges layout labels targets 0 [instr] :=
  hasEdges_of_notMem (fun member => stays (mem_singleton.mp member)) marks goes

theorem Inner.hasEdges (inner : Inner code) : HasEdges layout [] [] 0 code :=
  hasEdges_of_notMem (fun member => Bool.noConfusion (inner _ member)) inner.labelsOf_eq
    inner.targetsOf_eq

theorem HasEdges.append {labels' targets' : List String} {returns' : Nat} {code' : List Instr}
    (one : HasEdges layout labels targets returns code)
    (two : HasEdges layout labels' targets' returns' code') :
    HasEdges layout (labels ++ labels') (targets ++ targets') (returns + returns')
      (code ++ code') where
  labels := by rw [labelsOf_append, one.labels, two.labels]
  targets := by rw [targetsOf_append, one.targets, two.targets]
  returns := by rw [count_append, one.returns, two.returns]
  restored before after same := by
    rcases append_eq_append_iff.mp same with ⟨part, rfl, later⟩ | ⟨part, earlier, later⟩
    · rw [append_assoc]
      exact (two.restored part after later).trans (suffix_append code _)
    · cases part with
      | nil =>
        rw [append_nil] at earlier
        rw [← earlier]
        exact (two.restored [] after later.symm).trans (suffix_append code _)
      | cons instr rest =>
        cases later
        exact one.restored before rest earlier

theorem Emit.IsInner.hasEdges {step : Emit α} (inner : step.IsInner) :
    step.Yields (HasEdges layout [] [] 0) :=
  fun free emitted done => (inner free emitted done).hasEdges

theorem Emit.Yields.behind {β : Type} {first : Emit α} {next : α → Emit β} (one : first.IsInner)
    (two : ∀ value, (next value).Yields (HasEdges layout labels targets returns)) :
    (first >>= next).Yields (HasEdges layout labels targets returns) := by
  have inner : first.Yields (HasEdges layout [] [] 0) := one.hasEdges
  refine inner.bind two fun _ _ left right => ?_
  simpa only [nil_append, Nat.zero_add] using left.append right

end

/-- The epilogue is inner code and a return. -/
theorem epilogue_eq (layout : Layout) :
    ∃ code, Inner code ∧ layout.epilogue = code ++ [.ret] := by
  refine ⟨(layout.saved.zipIdx.map fun entry => .ldr entry.1 .sp (Layout.saveOffset entry.2)) ++
    [.mov .sp .fp, .ldpPost .fp .lr .sp Layout.recordSize], ?_, ?_⟩
  · rw [inner_append]
    exact ⟨inner_map (fun _ => rfl) _, by simp [Instr.isBoundary, inner_nil]⟩
  · rw [Layout.epilogue, append_assoc]
    rfl

theorem hasEdges_epilogue (layout : Layout) : HasEdges layout [] [] 1 layout.epilogue := by
  obtain ⟨code, inner, same⟩ := epilogue_eq layout
  have none : Instr.ret ∉ code := fun member => Bool.noConfusion (inner _ member)
  rw [same]
  refine ⟨?_, ?_, ?_, fun before after split => ?_⟩
  · rw [labelsOf_append, inner.labelsOf_eq]
    rfl
  · rw [targetsOf_append, inner.targetsOf_eq]
    rfl
  · rw [count_append, count_eq_zero.mpr none]
    rfl
  · obtain ⟨rfl, _, _⟩ := (append_cons_inj_of_notMem none not_mem_nil).mp split
    exact same ▸ suffix_refl _

namespace Site

open Emit (IsInner Yields)

variable (site : Site)

theorem yields_call (pending : Pending) (instr : Ir.Instr) :
    (site.call pending instr).Yields (HasEdges site.layout [] [] 0) := by
  refine .behind (.required inner_nil _) fun callee => .behind (.code (inner_reserve _)) fun _ =>
    .behind (site.isInner_stackArguments _) fun _ =>
      .behind (site.isInner_registerArguments _) fun _ => ?_
  have transfer : HasEdges site.layout [] [] 0 [Instr.bl callee] := hasEdges_single nofun rfl rfl
  refine .bind (.code transfer) (fun _ => (?_ : Yields _ (HasEdges site.layout [] [] 0)))
    fun _ _ left right => left.append right
  exact .behind (.code (inner_release _)) fun _ => (site.isInner_takeResult _).hasEdges

/-- The instruction has its label and its target in the code, and a return if it leaves the
function. -/
abbrev Edges (instr : Ir.Instr) : List Instr → Prop :=
  HasEdges site.layout (instr.mark?.toList.map Symbol.ofLabel)
    (instr.target?.toList.map Symbol.ofLabel) (if instr.opcode ∈ [.ret, .exit] then 1 else 0)

theorem yields_select (pending : Pending) (instr : Ir.Instr) :
    (site.select pending instr).Yields (site.Edges instr) := by
  -- Only labels and jumps have edges, and only calls and returns have other boundaries.
  by_cases gives : instr.opcode.givesValue = true
  · have kind : site.Edges instr = HasEdges site.layout [] [] 0 := by
      unfold Edges Ir.Instr.mark? Ir.Instr.target?
      revert gives
      cases instr.opcode <;> first | exact fun _ => rfl | exact nofun
    rw [kind]
    exact (site.isInner_select pending gives).hasEdges
  unfold select Edges Ir.Instr.mark? Ir.Instr.target?
  cases opcode : instr.opcode with
  | enter | allocArray | nop =>
    exact .done inner_nil.hasEdges _
  | label | jump =>
    refine .part fun name named => .code ?_
    rw [named]
    exact hasEdges_single nofun rfl rfl
  | jumpIfTrue | jumpIfFalse =>
    refine .part fun name named => .behind (.required inner_nil _) fun condition =>
      .behind (site.isInner_load condition) fun register => .code ?_
    rw [named]
    exact hasEdges_single nofun rfl rfl
  | arg =>
    exact .behind (.required inner_nil _) fun _ => .done inner_nil.hasEdges _
  | call =>
    exact site.yields_call pending instr
  | ret =>
    exact .behind (site.isInner_giveResult _) fun _ => .code (hasEdges_epilogue _)
  | exit =>
    exact .code (hasEdges_epilogue _)
  | print | println =>
    exact .behind (.required inner_nil _) fun value => .behind (site.isInner_loadInto _ value)
      fun _ => .code (hasEdges_single nofun rfl rfl)
  | push | pop =>
    exact .code (hasEdges_single nofun rfl rfl)
  | _ => simp [opcode, Ir.Opcode.givesValue] at gives

end Site

/-! ## Functions -/

section

variable {site : Site} {function : String} {pending : Pending} {instr : Ir.Instr}
  {code : List Instr}

theorem selectCode_cons {rest : List Ir.Instr}
    (selected : (selectCode site function pending (instr :: rest)).result = .ok code) :
    ∃ first others, (site.select pending instr).run = .ok first ∧
      (selectCode site function (pendingAfter pending instr) rest).result = .ok others ∧
      code = first ++ others := by
  rw [selectCode] at selected
  split at selected
  · cases selected
  · next first head =>
      cases tail : (selectCode site function (pendingAfter pending instr) rest).result with
      | error fault =>
        simp only [tail] at selected
        cases selected
      | ok others =>
        simp only [tail] at selected
        cases selected
        exact ⟨first, others, head, rfl, rfl⟩

theorem Emit.Yields.of_run {step : Emit Unit} {kind : List Instr → Prop} (yields : step.Yields kind)
    (done : step.run = .ok code) : kind code := by
  unfold Emit.run at done
  cases emits : step Reg.scratch with
  | error cause =>
    rw [emits] at done
    cases done
  | ok emitted =>
    rw [emits] at done
    cases done
    exact yields _ _ emits

theorem selectCode_hasEdges
    (selected : (selectCode site function pending instrs).result = .ok code) :
    HasEdges site.layout ((Ir.marksOf instrs).map Symbol.ofLabel)
      ((Ir.jumpTargets instrs).map Symbol.ofLabel) (instrs.countP (·.opcode ∈ [.ret, .exit]))
      code := by
  induction instrs generalizing pending code with
  | nil =>
    cases selected
    exact inner_nil.hasEdges
  | cons instr rest ih =>
    obtain ⟨first, others, head, tail, rfl⟩ := selectCode_cons selected
    rw [Ir.marksOf_cons, Ir.jumpTargets_cons, map_append, map_append, countP_cons, Nat.add_comm]
    simpa only [decide_eq_true_iff] using
      ((site.yields_select pending instr).of_run head).append (ih tail)

theorem select_returns (leaves : instr.opcode = .ret ∨ instr.opcode = .exit)
    (selected : (site.select pending instr).run = .ok code) : Returns code := by
  have epilogue : (Emit.code site.layout.epilogue).Yields Returns := by
    obtain ⟨before, _, same⟩ := epilogue_eq site.layout
    exact .code ⟨before, same⟩
  have yields : (site.select pending instr).Yields Returns := by
    rcases leaves with opcode | opcode
    · simp only [Site.select, opcode]
      exact .bind (site.isInner_giveResult _) (fun _ => epilogue) fun first _ _ returns =>
        returns.behind first
    · simp only [Site.select, opcode]
      exact epilogue
  exact yields.of_run selected

theorem selectCode_returns {last : Ir.Instr} (leaves : last.opcode = .ret ∨ last.opcode = .exit)
    (ends : instrs.getLast? = some last)
    (selected : (selectCode site function pending instrs).result = .ok code) : Returns code := by
  induction instrs generalizing pending code with
  | nil => cases ends
  | cons instr rest ih =>
    obtain ⟨first, others, head, tail, rfl⟩ := selectCode_cons selected
    cases rest with
    | nil =>
      cases ends
      cases tail
      rw [append_nil]
      exact select_returns leaves head
    | cons next more => exact (ih (getLast?_cons_cons ▸ ends) tail).behind first

end

/-- The parts of the code of a function. -/
theorem withLayout_ok {layout : Layout}
    (done : (Function.withLayout globals function layout).result = .ok assembled) :
    ∃ code, (selectCode ⟨layout, globals⟩ function.name [] function.code).result = .ok code ∧
      assembled = ⟨function.name, layout.size, layout.leaf, layout.prologue ++ code ++
        if leavesAtEnd function then [] else layout.epilogue⟩ := by
  unfold Function.withLayout at done
  cases selected : (selectCode ⟨layout, globals⟩ function.name [] function.code).result with
  | error fault =>
    simp only [selected] at done
    cases done
  | ok code =>
    simp only [selected] at done
    cases done
    exact ⟨code, rfl, rfl⟩

theorem ofIr_ok (done : (Function.ofIr globals function).result = .ok assembled) :
    ∃ layout, Layout.ofFunction function = .ok layout ∧
      (Function.withLayout globals function layout).result = .ok assembled := by
  unfold Function.ofIr at done
  split at done
  · cases done
  · next layout found => exact ⟨layout, found, done⟩

/-- The machine code of a function has its name, its labels and its jumps, and returns. -/
structure Function.Assembles (function : Ir.Function) (assembled : Function) : Prop where
  name : assembled.name = function.name
  labels : labelsOf assembled.body = (Ir.marksOf function.code).map Symbol.ofLabel
  targets : targetsOf assembled.body = (Ir.jumpTargets function.code).map Symbol.ofLabel
  returns : Returns assembled.body

section

variable {layout : Layout} {code : List Instr}
  (selected : (selectCode ⟨layout, globals⟩ function.name [] function.code).result = .ok code)
include selected

/-- An epilogue at the end is one more return. -/
theorem hasEdges_body :
    HasEdges layout ((Ir.marksOf function.code).map Symbol.ofLabel)
      ((Ir.jumpTargets function.code).map Symbol.ofLabel)
      (function.code.countP (·.opcode ∈ [.ret, .exit]) + if leavesAtEnd function then 0 else 1)
      (layout.prologue ++ code ++ if leavesAtEnd function then [] else layout.epilogue) := by
  have edges := (inner_prologue layout).hasEdges.append (selectCode_hasEdges selected)
  cases leavesAtEnd function with
  | true => simpa using edges
  | false => simpa using edges.append (hasEdges_epilogue layout)

theorem returns_body :
    Returns (layout.prologue ++ code ++ if leavesAtEnd function then [] else layout.epilogue) := by
  cases leaves : leavesAtEnd function with
  | true =>
    unfold leavesAtEnd at leaves
    split at leaves
    · next last found =>
        simp only [Bool.or_eq_true, beq_iff_eq] at leaves
        simpa using (selectCode_returns leaves found selected).behind layout.prologue
    · cases leaves
  | false =>
    obtain ⟨before, _, same⟩ := epilogue_eq layout
    have returns : Returns layout.epilogue := ⟨before, same⟩
    simpa using returns.behind (layout.prologue ++ code)

end

theorem assembles_ofIr (done : (Function.ofIr globals function).result = .ok assembled) :
    Function.Assembles function assembled := by
  obtain ⟨layout, _, done⟩ := ofIr_ok done
  obtain ⟨code, selected, rfl⟩ := withLayout_ok done
  have edges := hasEdges_body selected
  exact ⟨rfl, edges.labels, edges.targets, returns_body selected⟩

/-- The code of a function and of those behind it. -/
theorem ofIrs_cons {rest : List Ir.Function} {assembled : List Function}
    (done : (Function.ofIrs globals (function :: rest)).result = .ok assembled) :
    ∃ first others, (Function.ofIr globals function).result = .ok first ∧
      (Function.ofIrs globals rest).result = .ok others ∧ assembled = first :: others := by
  rw [Function.ofIrs] at done
  split at done
  · cases done
  · next first head =>
      cases tail : (Function.ofIrs globals rest).result with
      | error fault =>
        simp only [tail] at done
        cases done
      | ok others =>
        simp only [tail] at done
        cases done
        exact ⟨first, others, head, rfl, rfl⟩

theorem assembles_ofIrs {functions : List Ir.Function} {assembled : List Function}
    (done : (Function.ofIrs globals functions).result = .ok assembled) :
    Forall₂ Function.Assembles functions assembled := by
  induction functions generalizing assembled with
  | nil =>
    cases done
    exact .nil
  | cons function rest ih =>
    obtain ⟨first, others, head, tail, rfl⟩ := ofIrs_cons done
    exact .cons (assembles_ofIr head) (ih tail)

end ArmBackend.Machine
