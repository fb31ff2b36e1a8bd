import ArmBackend.Ir.Sweep
import Mathlib.Algebra.Order.BigOperators.Group.List
import Mathlib.Algebra.Ring.Nat

/-!
# Sweeps come to rest

An instruction weighs as much as it can still be revised: a pure operation once for each of
its sources that names a place, then into the load of a literal, which may at last be dropped.
Every pass that reports a change makes the code lighter, and a pass that reports none leaves
the code as it is.  So there are only so many changes, and a sweep without changes has found
a program that no pass changes.
-/

namespace ArmBackend.Ir

open List Option

/-- The operand names a place directly. -/
def Operand.isPlace (operand : Operand) : Bool :=
  operand.location?.isSome

/-- The most changes that passes can make to an instruction until it is dropped. -/
def Instr.weight (instr : Instr) : Nat :=
  if instr.opcode.isPure then 2 + instr.sources.countP Operand.isPlace
  else if instr.opcode = .load then 2
  else 1

def weight (code : List Instr) : Nat :=
  (code.map Instr.weight).sum

namespace Instr

variable {instr other : Instr}

theorem weight_pos (instr : Instr) : 0 < instr.weight := by
  unfold weight
  split_ifs <;> omega

theorem weight_le (instr : Instr) : instr.weight ≤ 4 := by
  have few : instr.sources.length ≤ 2 := by
    cases one : instr.src1 <;> cases two : instr.src2 <;> simp [sources, one, two]
  have places := instr.sources.countP_le_length (p := Operand.isPlace)
  unfold weight
  split_ifs <;> omega

theorem weight_of_opcode {opcode : Opcode} (same : instr.opcode = opcode)
    (notPure : opcode.isPure = false) (notLoad : opcode ≠ .load) : instr.weight = 1 := by
  simp [weight, same, notPure, notLoad]

theorem one_lt_weight_of_isPure (isPure : instr.opcode.isPure = true) : 1 < instr.weight := by
  rw [weight, if_pos isPure]
  omega

theorem weight_le_of_sources {change : Operand → Operand}
    (places : ∀ operand, (change operand).isPlace = true → operand.isPlace = true)
    (opcode : other.opcode = instr.opcode) (sources : other.sources = instr.sources.map change) :
    other.weight ≤ instr.weight := by
  have fewer : other.sources.countP Operand.isPlace ≤ instr.sources.countP Operand.isPlace := by
    rw [sources, countP_map]
    exact countP_mono_left fun operand _ => places operand
  unfold weight
  rw [opcode]
  split_ifs <;> omega

end Instr

theorem weight_cons (instr : Instr) (rest : List Instr) :
    weight (instr :: rest) = instr.weight + weight rest :=
  sum_cons

theorem weight_le (code : List Instr) : weight code ≤ 4 * code.length := by
  induction code with
  | nil => exact Nat.le_refl 0
  | cons instr rest ih =>
    have here := instr.weight_le
    rw [weight_cons, length_cons]
    omega

theorem weight_filter (keep : Instr → Bool) (code : List Instr) :
    weight (code.filter keep) + code.length ≤ weight code + (code.filter keep).length := by
  induction code with
  | nil => exact Nat.le_refl _
  | cons instr rest ih =>
    have here := instr.weight_pos
    rw [weight_cons, filter_cons, length_cons]
    split
    · rw [weight_cons, length_cons]
      omega
    · omega

/-! ## What a revision reports -/

/-- The revision of the code reports truly: it leaves the code as settled, or makes it lighter. -/
structure Revision.Tells (revision : Revision) (code settled : List Instr) : Prop where
  still : revision.changed = false → revision.code = settled
  lighter : revision.changed = true → weight revision.code < weight code
  noHeavier : weight revision.code ≤ weight code
  noLonger : revision.code.length ≤ code.length

variable {function : Function} {instr : Instr} {functions : List Function} {passes : List Pass}
  {budget : Nat} {state : Optimized} {warnings : WarningLog}

namespace Revision.Tells

variable {revision : Revision} {code settled : List Instr}

theorem nil : Revision.done.Tells [] [] :=
  ⟨fun _ => rfl, nofun, Nat.le_refl _, Nat.le_refl _⟩

theorem refl (code : List Instr) : (⟨code, false⟩ : Revision).Tells code code :=
  ⟨fun _ => rfl, nofun, Nat.le_refl _, Nat.le_refl _⟩

/-- One instruction stays in its place. -/
theorem cons (tells : revision.Tells code settled) {revised placed : Instr} {changed : Bool}
    (still : changed = false → revised = placed)
    (lighter : changed = true → revised.weight < instr.weight)
    (noHeavier : revised.weight ≤ instr.weight) :
    (Revision.cons revised changed revision).Tells (instr :: code) (placed :: settled) where
  still unchanged := by
    obtain ⟨here, there⟩ := Bool.or_eq_false_iff.mp unchanged
    exact congrArg₂ List.cons (still here) (tells.still there)
  lighter reported := by
    have rest := tells.noHeavier
    rw [weight_cons, Revision.cons, weight_cons]
    rcases Bool.or_eq_true_iff.mp reported with here | there
    · have := lighter here
      omega
    · have := tells.lighter there
      omega
  noHeavier := by
    have rest := tells.noHeavier
    rw [weight_cons, Revision.cons, weight_cons]
    omega
  noLonger := Nat.succ_le_succ tells.noLonger

/-- One instruction goes. -/
theorem drop (tells : revision.Tells code settled) (instr : Instr) (other : List Instr) :
    { revision with changed := true }.Tells (instr :: code) other where
  still := nofun
  lighter _ := by
    have rest := tells.noHeavier
    have here := instr.weight_pos
    rw [weight_cons]
    dsimp only
    omega
  noHeavier := by
    rw [weight_cons]
    exact Nat.le_add_left_of_le tells.noHeavier
  noLonger := Nat.le_succ_of_le tells.noLonger

theorem cons_drop (tells : revision.Tells code settled) {revised : Instr}
    (noHeavier : revised.weight ≤ instr.weight) (dropped : Instr) (other : List Instr) :
    (Revision.cons revised true revision).Tells (instr :: dropped :: code) other := by
  have kept : (Revision.cons revised false _).Tells (instr :: _) (revised :: _) :=
    (tells.drop dropped []).cons (fun _ => rfl) nofun noHeavier
  exact ⟨nofun, kept.lighter, kept.noHeavier, kept.noLonger⟩

theorem filter (keep : Instr → Bool) (code : List Instr) :
    (Revision.filter keep code).Tells code code := by
  have weights := weight_filter keep code
  have lengths := code.length_filter_le keep
  refine ⟨fun unchanged => ?_, fun reported => ?_, ?_, lengths⟩
  · have same : (code.filter keep).length = code.length := by simpa [Revision.filter] using unchanged
    exact filter_eq_self.mpr (length_filter_eq_length_iff.mp same)
  · have shorter : (code.filter keep).length ≠ code.length := by
      simpa [Revision.filter] using reported
    simp only [Revision.filter]
    omega
  · simp only [Revision.filter]
    omega

theorem andThen (first : revision.Tells code code) {second : List Instr → Revision}
    (next : ∀ code, (second code).Tells code code) : (revision.andThen second).Tells code code where
  still unchanged := by
    obtain ⟨one, two⟩ := Bool.or_eq_false_iff.mp unchanged
    exact ((next _).still two).trans (first.still one)
  lighter reported := by
    rcases Bool.or_eq_true_iff.mp reported with one | two
    · exact Nat.lt_of_le_of_lt (next _).noHeavier (first.lighter one)
    · exact Nat.lt_of_lt_of_le ((next _).lighter two) first.noHeavier
  noHeavier := (next _).noHeavier.trans first.noHeavier
  noLonger := (next _).noLonger.trans first.noLonger

end Revision.Tells

/-! ## Each of the passes -/

section

variable (known : Known)

theorem Known.substitute_cases (operand : Operand) :
    known.heldBy? operand = none ∧ known.substitute operand = operand ∨
      (known.heldBy? operand).isSome ∧ operand.isPlace = true ∧
        (known.substitute operand).isPlace = false := by
  unfold substitute
  cases held : known.heldBy? operand with
  | none => exact .inl ⟨rfl, rfl⟩
  | some value =>
    obtain ⟨place, named, _⟩ := bind_eq_some_iff.mp held
    exact .inr ⟨rfl, by rw [Operand.isPlace, named]; rfl, rfl⟩

theorem Known.countP_substitute (sources : List Operand) :
    (sources.map known.substitute).countP Operand.isPlace +
      sources.countP (fun source => (known.heldBy? source).isSome) =
        sources.countP Operand.isPlace := by
  induction sources with
  | nil => rfl
  | cons source rest ih =>
    rw [map_cons, countP_cons, countP_cons, countP_cons]
    rcases known.substitute_cases source with ⟨free, same⟩ | ⟨held, place, gone⟩
    · simp only [free, same, isSome_none, Bool.false_eq_true, if_false]
      omega
    · simp only [held, place, gone, Bool.false_eq_true, if_true, if_false]
      omega

namespace Propagation

theorem weight_substituteSources (isPure : instr.opcode.isPure = true) :
    (substituteSources known instr).weight +
      instr.sources.countP (fun source => (known.heldBy? source).isSome) = instr.weight := by
  have sources : (substituteSources known instr).sources = instr.sources.map known.substitute := by
    cases one : instr.src1 <;> cases two : instr.src2 <;>
      simp [substituteSources, Instr.sources, one, two]
  have same : (substituteSources known instr).opcode = instr.opcode := rfl
  have counts := known.countP_substitute instr.sources
  rw [Instr.weight, Instr.weight, same, if_pos isPure, if_pos isPure, sources]
  omega

theorem substituteSources_of_not_held (none : hasKnownSource known instr = false) :
    substituteSources known instr = instr := by
  have fixed {source : Option Operand} (inside : ∀ operand ∈ source, operand ∈ instr.sources) :
      source.map known.substitute = source := by
    cases source with
    | none => rfl
    | some operand =>
      have free := any_eq_false.mp none operand (inside operand rfl)
      rcases known.substitute_cases operand with ⟨_, same⟩ | ⟨held, _⟩
      · exact congrArg some same
      · exact absurd held free
  have one := fixed fun operand (found : operand ∈ instr.src1) =>
    mem_append_left instr.src2.toList (mem_toList.mpr found)
  have two := fixed fun operand (found : operand ∈ instr.src2) =>
    mem_append_right instr.src1.toList (mem_toList.mpr found)
  rw [substituteSources, one, two]

/-- The literal weighs less than the load. -/
theorem weight_knownLoad? {loaded : Instr} (found : knownLoad? known instr = some loaded) :
    loaded.weight = 1 := by
  unfold knownLoad? at found
  split at found
  · cases found
    exact Instr.weight_of_opcode rfl rfl nofun
  · cases found

theorem tells_revise (instr : Instr) :
    ((revise known instr).2 = false → (revise known instr).1 = instr) ∧
      ((revise known instr).2 = true → (revise known instr).1.weight < instr.weight) ∧
        (revise known instr).1.weight ≤ instr.weight := by
  unfold revise
  split_ifs with isPure load
  · have weights := weight_substituteSources known isPure
    refine ⟨substituteSources_of_not_held known, fun held => ?_, by dsimp only; omega⟩
    have some := countP_pos_iff.mpr (List.any_eq_true.mp held)
    dsimp only
    omega
  · have two : instr.weight = 2 := by rw [Instr.weight, load]; rfl
    split
    · next loaded found =>
        have one := weight_knownLoad? known found
        exact ⟨nofun, fun _ => by dsimp only; omega, by dsimp only; omega⟩
    · exact ⟨fun _ => rfl, nofun, Nat.le_refl _⟩
  · exact ⟨fun _ => rfl, nofun, Nat.le_refl _⟩

theorem tells_run (code : List Instr) : (run known code).Tells code code := by
  induction code generalizing known with
  | nil => exact .nil
  | cons instr rest ih =>
    rw [run]
    split
    · exact (ih _).cons (fun _ => rfl) nofun (Nat.le_refl _)
    have told := tells_revise (enter known instr) instr
    exact (ih _).cons told.1 told.2.1 told.2.2

end Propagation

end

theorem Instr.isPure_of_folded? {value : Immediate} (folds : instr.folded? = some value) :
    instr.opcode.isPure = true := by
  unfold folded? at folds
  by_cases binary : instr.opcode.isBinary = true
  · cases opcode : instr.opcode <;> first | rfl | (rw [opcode] at binary; cases binary)
  · rw [if_neg binary] at folds
    exact (ite_none_right_eq_some.mp folds).1

theorem tells_foldConstants (code : List Instr) : (foldConstants code).Tells code code := by
  induction code with
  | nil => exact .nil
  | cons instr rest ih =>
    rw [foldConstants]
    split
    · next loaded folds =>
        unfold Instr.fold? at folds
        split at folds
        · next value dest folded found =>
            have heavy := Instr.one_lt_weight_of_isPure (Instr.isPure_of_folded? folded)
            cases folds
            have one : ({ Instr.loadImm dest (value.fit dest.type) with
                comment := instr.comment, line := instr.line } : Instr).weight = 1 :=
              Instr.weight_of_opcode rfl rfl nofun
            exact ih.cons nofun (fun _ => by omega) (by omega)
        · cases folds
    · exact ih.cons (fun _ => rfl) nofun (Nat.le_refl _)

theorem Operand.isPlace_of_rename (place : Location) (value operand : Operand)
    (named : (rename place value operand).isPlace = true) : operand.isPlace = true := by
  cases operand with
  | temp _ _ | var _ _ | param _ _ | global _ _ => rfl
  | _ => exact named

theorem Instr.weight_renameReads (place : Location) (value : Operand) (instr : Instr) :
    (instr.renameReads place value).weight ≤ instr.weight := by
  refine weight_le_of_sources (Operand.isPlace_of_rename place value) rfl ?_
  cases one : instr.src1 <;> cases two : instr.src2 <;> simp [renameReads, sources, one, two]

theorem tells_forwardFrom {settle : Instr → Instr} (light : ∀ instr, (settle instr).weight ≤ instr.weight)
    (code : List Instr) : (forwardFrom settle code).Tells code (code.map settle) := by
  fun_induction forwardFrom settle code with
  | case1 => exact .nil
  | case2 settle instr => exact Revision.Tells.nil.cons (fun _ => rfl) nofun (light instr)
  | case3 settle store load rest place value found ih =>
    have lighter (instr : Instr) := ((settle instr).weight_renameReads place value).trans (light instr)
    exact (ih lighter).cons_drop (light store) load _
  | case4 settle store load rest none ih => exact (ih light).cons (fun _ => rfl) nofun (light store)

theorem tells_dropShortJumps (code : List Instr) : (dropShortJumps code).Tells code code := by
  fun_induction dropShortJumps code with
  | case1 => exact .nil
  | case2 instr => exact Revision.Tells.nil.cons (fun _ => rfl) nofun (Nat.le_refl _)
  | case3 jump next rest others short ih => exact ih.drop jump _
  | case4 jump next rest others long ih => exact ih.cons (fun _ => rfl) nofun (Nat.le_refl _)

theorem weight_inverted? {branch jump next inverted : Instr}
    (turned : branch.inverted? jump next = some inverted) : inverted.weight ≤ branch.weight := by
  unfold Instr.inverted? at turned
  split at turned
  · next opcode opposite =>
      split at turned
      · cases turned
        have one : opcode = .jumpIfTrue ∨ opcode = .jumpIfFalse := by
          cases found : branch.opcode <;> rw [found] at opposite <;> cases opposite <;> simp
        have light : ({ branch with opcode, label := jump.label } : Instr).weight = 1 := by
          rcases one with rfl | rfl <;> exact Instr.weight_of_opcode rfl rfl nofun
        have here := branch.weight_pos
        omega
      · cases turned
  · cases turned

theorem tells_invertBranches (code : List Instr) : (invertBranches code).Tells code code := by
  fun_induction invertBranches code with
  | case1 branch jump next rest inverted turned ih =>
    exact ih.cons_drop (weight_inverted? turned) jump _
  | case2 branch jump next rest none ih => exact ih.cons (fun _ => rfl) nofun (Nat.le_refl _)
  | case3 code short => exact .refl code

theorem Pass.tells (pass : Pass) (code : List Instr) : (pass.revise code).Tells code code := by
  cases pass with
  | propagation => exact Propagation.tells_run [] code
  | folding => exact tells_foldConstants code
  | deadCode | labels => exact .filter _ code
  | loadForwarding =>
    have tells : (forwardFrom id code).Tells code (code.map id) :=
      tells_forwardFrom (fun _ => Nat.le_refl _) code
    rwa [List.map_id] at tells
  | jumps =>
    exact ((Revision.Tells.filter _ code).andThen tells_dropShortJumps).andThen
      tells_invertBranches

/-! ## Changes in sweeps -/

theorem sum_zipWith_le (first second : List Nat) :
    (List.zipWith (· + ·) first second).sum ≤ first.sum + second.sum := by
  induction first generalizing second with
  | nil => exact Nat.zero_le _
  | cons one rest ih =>
    cases second with
    | nil => exact Nat.zero_le _
    | cons two others =>
      have more := ih others
      rw [zipWith_cons_cons, sum_cons, sum_cons, sum_cons]
      omega

/-- The weight of the code of all functions. -/
def totalWeight (functions : List Function) : Nat :=
  (functions.map fun function => weight function.code).sum

theorem totalWeight_cons (function : Function) (rest : List Function) :
    totalWeight (function :: rest) = weight function.code + totalWeight rest :=
  sum_cons

theorem totalWeight_le (functions : List Function) :
    totalWeight functions ≤
      4 * functions.foldr (fun function count => function.code.length + count) 0 := by
  induction functions with
  | nil => exact Nat.le_refl 0
  | cons function rest ih =>
    have here := weight_le function.code
    rw [totalWeight_cons, foldr_cons]
    omega

/-- Every change of a function takes some weight. -/
theorem changes_sweepFunction (passes : List Pass) (warnings : WarningLog) (function : Function) :
    (sweepFunction passes warnings function).changes.sum +
      weight (sweepFunction passes warnings function).result.code ≤ weight function.code := by
  induction passes generalizing warnings function with
  | nil => exact Nat.le_of_eq (Nat.zero_add _)
  | cons pass rest ih =>
    have tells := pass.tells function.code
    have more := ih (pass.log function warnings) (pass.run function).1
    have here : changeCount (pass.run function).2 + weight (pass.run function).1.code ≤
        weight function.code := by
      cases reported : (pass.run function).2 with
      | false => exact (Nat.zero_add _).trans_le tells.noHeavier
      | true => exact (Nat.add_comm _ _).trans_le (tells.lighter reported)
    simp only [sweepFunction, sum_cons]
    omega

theorem changes_sweepFunctions (passes : List Pass) (warnings : WarningLog)
    (functions : List Function) :
    (sweepFunctions passes warnings functions).changes.sum +
      totalWeight (sweepFunctions passes warnings functions).result ≤ totalWeight functions := by
  induction functions generalizing warnings with
  | nil => simp [sweepFunctions, totalWeight]
  | cons function rest ih =>
    have here := changes_sweepFunction passes warnings function
    have more := ih (sweepFunction passes warnings function).warnings
    have sums := sum_zipWith_le (sweepFunction passes warnings function).changes
      (sweepFunctions passes (sweepFunction passes warnings function).warnings rest).changes
    rw [totalWeight_cons]
    simp only [sweepFunctions, totalWeight_cons]
    omega

namespace Optimized

variable (passes : List Pass)

theorem changes_sweep (state : Optimized) :
    (state.sweep passes).changes.sum + totalWeight (state.sweep passes).functions ≤
      state.changes.sum + totalWeight state.functions := by
  have swept := changes_sweepFunctions passes state.warnings state.functions
  have sums := sum_zipWith_le state.changes
    (sweepFunctions passes state.warnings state.functions).changes
  simp only [sweep]
  omega

theorem changes_iterate (budget : Nat) (state : Optimized) :
    (state.iterate passes budget).changes.sum +
      totalWeight (state.iterate passes budget).functions ≤
        state.changes.sum + totalWeight state.functions := by
  induction budget generalizing state with
  | zero => exact Nat.le_refl _
  | succ budget ih =>
    have once := state.changes_sweep passes
    rw [iterate]
    split
    · exact once
    · exact (ih _).trans once

theorem totalWeight_sweep (state : Optimized) (restless : (state.sweep passes).converged = false) :
    totalWeight (state.sweep passes).functions < totalWeight state.functions := by
  have swept := changes_sweepFunctions passes state.warnings state.functions
  obtain ⟨count, member, changed⟩ := List.all_eq_false.mp restless
  have some : 0 < (sweepFunctions passes state.warnings state.functions).changes.sum :=
    List.sum_pos_iff_exists_pos_nat.mpr ⟨count, member, by simpa [Nat.pos_iff_ne_zero] using changed⟩
  simp only [sweep]
  omega

/-- Enough sweeps find a program at rest. -/
theorem converged_iterate (enough : totalWeight state.functions < budget) :
    (state.iterate passes budget).converged = true := by
  induction budget generalizing state with
  | zero => cases enough
  | succ budget ih =>
    rw [iterate]
    split
    · assumption
    · next restless =>
        have lighter := state.totalWeight_sweep passes (Bool.eq_false_iff.mpr restless)
        exact ih (by omega)

end Optimized

/-- The program before the first sweep. -/
def Program.unswept (program : Program) : Optimized :=
  { functions := program.functions, changes := Pass.standard.map fun _ => 0 }

/-- Without a limit, sweeps find a program that does not change; on the way no pass makes code
longer, and passes report at most four changes for each instruction. -/
theorem sweeps_come_to_rest (program : Program) :
    (∀ (pass : Pass) (function : Function),
      (pass.run function).1.code.length ≤ function.code.length) ∧
    (∀ budget, (program.unswept.iterate Pass.standard budget).changes.sum ≤
      4 * program.instrCount) ∧
    ∃ budget, budget ≤ 4 * program.instrCount + 1 ∧
      (program.unswept.iterate Pass.standard budget).converged = true := by
  have start : totalWeight program.unswept.functions ≤ 4 * program.instrCount :=
    totalWeight_le program.functions
  refine ⟨fun pass function => (pass.tells function.code).noLonger, fun budget => ?_, ?_⟩
  · have most := program.unswept.changes_iterate Pass.standard budget
    have none : program.unswept.changes.sum = 0 := rfl
    omega
  · exact ⟨_, Nat.le_refl _, Optimized.converged_iterate Pass.standard (Nat.lt_succ_of_le start)⟩

/-! ## Programs at rest -/

/-- No pass changes the function. -/
def Function.Rests (passes : List Pass) (function : Function) : Prop :=
  ∀ pass ∈ passes, pass.run function = (function, false)

theorem Pass.run_changed_iff (pass : Pass) (function : Function) :
    (pass.run function).2 = true ↔ (pass.run function).1 ≠ function := by
  have tells := pass.tells function.code
  constructor
  · intro reported same
    have lighter := tells.lighter reported
    have code : (pass.revise function.code).code = function.code := congrArg Function.code same
    rw [code] at lighter
    exact Nat.lt_irrefl _ lighter
  · intro differs
    by_contra silent
    refine differs ?_
    rw [run, tells.still (Bool.eq_false_iff.mpr silent)]

theorem Pass.run_eq {pass : Pass} (unchanged : changeCount (pass.run function).2 = 0) :
    pass.run function = (function, false) := by
  have silent : (pass.run function).2 = false := by
    cases reported : (pass.run function).2 with
    | false => rfl
    | true => rw [reported] at unchanged; cases unchanged
  have same : (pass.run function).1 = function := by
    by_contra differs
    rw [(pass.run_changed_iff function).mpr differs] at silent
    cases silent
  exact Prod.ext same silent

theorem Function.rests_of_changes
    (silent : ∀ count ∈ (sweepFunction passes warnings function).changes, count = 0) :
    function.Rests passes ∧ (sweepFunction passes warnings function).result = function := by
  induction passes generalizing warnings with
  | nil => exact ⟨nofun, rfl⟩
  | cons pass rest ih =>
    obtain ⟨here, later⟩ := forall_mem_cons.mp silent
    have still := Pass.run_eq here
    have later : ∀ count ∈ (sweepFunction rest _ (pass.run function).1).changes, count = 0 := later
    rw [still] at later
    obtain ⟨others, result⟩ := ih later
    refine ⟨forall_mem_cons.mpr ⟨still, others⟩, ?_⟩
    simp only [sweepFunction, still]
    exact result

theorem Function.Rests.sweepFunction (rests : function.Rests passes) (warnings : WarningLog) :
    (sweepFunction passes warnings function).result = function ∧
      (Ir.sweepFunction passes warnings function).changes = passes.map fun _ => 0 := by
  induction passes generalizing warnings with
  | nil => exact ⟨rfl, rfl⟩
  | cons pass rest ih =>
    obtain ⟨here, later⟩ := forall_mem_cons.mp rests
    obtain ⟨result, changes⟩ := ih later (pass.log function warnings)
    simp only [Ir.sweepFunction, here, map_cons, changes]
    exact ⟨result, rfl⟩

theorem length_changes_sweepFunction (passes : List Pass) (warnings : WarningLog)
    (function : Function) :
    (sweepFunction passes warnings function).changes.length = passes.length := by
  induction passes generalizing warnings function with
  | nil => rfl
  | cons pass rest ih => exact congrArg Nat.succ (ih _ _)

theorem length_changes_sweepFunctions (passes : List Pass) (warnings : WarningLog)
    (functions : List Function) :
    (sweepFunctions passes warnings functions).changes.length = passes.length := by
  induction functions generalizing warnings with
  | nil => exact length_map _
  | cons function rest ih =>
    simp only [sweepFunctions, length_zipWith, length_changes_sweepFunction, ih, Nat.min_self]

theorem zero_of_zipWith {first second : List Nat} (lengths : first.length = second.length)
    (zero : ∀ count ∈ List.zipWith (· + ·) first second, count = 0) :
    (∀ count ∈ first, count = 0) ∧ ∀ count ∈ second, count = 0 := by
  induction first generalizing second with
  | nil =>
    cases second with
    | nil => exact ⟨nofun, nofun⟩
    | cons => cases lengths
  | cons one rest ih =>
    cases second with
    | nil => cases lengths
    | cons two others =>
      obtain ⟨here, later⟩ := forall_mem_cons.mp zero
      obtain ⟨left, right⟩ := ih (Nat.succ.inj lengths) later
      obtain ⟨none, none'⟩ := Nat.add_eq_zero_iff.mp here
      exact ⟨forall_mem_cons.mpr ⟨none, left⟩, forall_mem_cons.mpr ⟨none', right⟩⟩

theorem rests_of_changes
    (silent : ∀ count ∈ (sweepFunctions passes warnings functions).changes, count = 0) :
    (∀ function ∈ functions, function.Rests passes) ∧
      (sweepFunctions passes warnings functions).result = functions := by
  induction functions generalizing warnings with
  | nil => exact ⟨nofun, rfl⟩
  | cons function rest ih =>
    obtain ⟨here, later⟩ := zero_of_zipWith (by rw [length_changes_sweepFunction,
      length_changes_sweepFunctions]) silent
    obtain ⟨first, same⟩ := Function.rests_of_changes here
    obtain ⟨others, result⟩ := ih later
    exact ⟨forall_mem_cons.mpr ⟨first, others⟩, congrArg₂ List.cons same result⟩

theorem sweepFunctions_of_rests (rests : ∀ function ∈ functions, function.Rests passes)
    (warnings : WarningLog) :
    (sweepFunctions passes warnings functions).result = functions ∧
      (sweepFunctions passes warnings functions).changes = passes.map fun _ => 0 := by
  induction functions generalizing warnings with
  | nil => exact ⟨rfl, rfl⟩
  | cons function rest ih =>
    obtain ⟨here, later⟩ := forall_mem_cons.mp rests
    obtain ⟨same, none⟩ := here.sweepFunction warnings
    obtain ⟨result, changes⟩ := ih later (sweepFunction passes warnings function).warnings
    simp only [sweepFunctions, same, none, result, changes, zipWith_self, List.map_map]
    exact ⟨trivial, rfl⟩

theorem Optimized.rests_iterate (restless : state.converged = false)
    (done : (state.iterate passes budget).converged = true) :
    ∀ function ∈ (state.iterate passes budget).functions, function.Rests passes := by
  induction budget generalizing state with
  | zero =>
    rw [iterate, restless] at done
    cases done
  | succ budget ih =>
    rw [iterate] at done ⊢
    split at done
    · next quiet =>
        have silent := all_eq_true.mp quiet
        obtain ⟨rests, same⟩ := rests_of_changes fun count member => beq_iff_eq.mp (silent count member)
        rw [if_pos quiet]
        simp only [sweep, same]
        exact rests
    · next loud =>
        rw [if_neg loud]
        exact ih (Bool.eq_false_iff.mpr loud) done

theorem Program.optimize_of_rests {program : Program}
    (rests : ∀ function ∈ program.functions, function.Rests Pass.standard) :
    program.optimize.program = program ∧
      program.optimize.stats =
        { sweeps := 1, converged := true, passChanges := Pass.standard.map fun pass => (pass.name, 0)
          before := program.instrCount, after := program.instrCount } := by
  obtain ⟨result, changes⟩ := sweepFunctions_of_rests rests []
  have quiet : (program.unswept.sweep Pass.standard).converged = true := by
    simp only [Optimized.sweep, unswept, changes]
    rfl
  have counts : (program.unswept.sweep Pass.standard).changes = Pass.standard.map fun _ => 0 := by
    simp only [Optimized.sweep, unswept, changes]
    rfl
  have once : program.unswept.iterate Pass.standard maxSweeps =
      program.unswept.sweep Pass.standard := by
    rw [maxSweeps, Optimized.iterate, if_pos quiet]
  have same : program.optimize.program = program := by
    have functions : (program.unswept.iterate Pass.standard maxSweeps).functions =
        program.functions := once ▸ result
    exact congrArg (fun functions => { program with functions }) functions
  refine ⟨same, ?_⟩
  have stats : program.optimize.stats = ⟨(program.unswept.iterate Pass.standard maxSweeps).sweeps,
      (program.unswept.iterate Pass.standard maxSweeps).converged,
      (Pass.standard.map Pass.name).zip (program.unswept.iterate Pass.standard maxSweeps).changes,
      program.instrCount, program.optimize.program.instrCount⟩ := rfl
  rw [stats, once, same, counts, quiet]
  rfl

/-- A pass reports a change exactly when it makes one.  So a program with which the sweeps
converged does not change any more, and the optimizer reports so. -/
theorem converged_is_fixpoint (program : Program) :
    (∀ (pass : Pass) (function : Function),
      (pass.run function).2 = true ↔ (pass.run function).1 ≠ function) ∧
    (program.optimize.stats.converged = true →
      program.optimize.program.optimize.program = program.optimize.program ∧
      program.optimize.program.optimize.stats =
        { sweeps := 1, converged := true, passChanges := Pass.standard.map fun pass => (pass.name, 0)
          before := program.optimize.program.instrCount
          after := program.optimize.program.instrCount }) :=
  ⟨Pass.run_changed_iff, fun converged =>
    Program.optimize_of_rests (Optimized.rests_iterate rfl converged)⟩

/-- A loop whose first branch is known: the passes need each other to clear it away. -/
def untidy : Program where
  functions :=
    [{ name := "main"
       code :=
        [.store (.var "x" .int) (.nat 4),
          .load (.temp "t0" .int) (.var "x" .int),
          .binary .mul (.temp "t1" .int) (.temp "t0" .int) (.nat 2),
          .jumpIf false (.temp "t1" .int) "L1",
          .jump "L0",
          .mark "L1",
          .print false (.temp "t1" .int),
          .mark "L0",
          .ret none] }]

theorem untidy_is_fixpoint :
    untidy.optimize.stats.converged = true ∧
      untidy.optimize.program.optimize.program = untidy.optimize.program := by
  have converged : untidy.optimize.stats.converged = true := by decide +kernel
  exact ⟨converged, ((converged_is_fixpoint untidy).2 converged).1⟩

end ArmBackend.Ir
