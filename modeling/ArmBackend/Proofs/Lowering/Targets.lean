import ArmBackend.Proofs.Lowering.Origins
import ArmBackend.Proofs.Passes.Sweeps

/-!
# Targets of jumps in lowered code

In the code of a whole function every jump has its label, and in the code of a whole
program no label stands twice.
-/

namespace ArmBackend.Ir

open List

/-- A function whose labels were issued between two contexts, and whose jumps have labels. -/
structure Function.Labelled (before after : Context) (function : Function) : Prop where
  issued : before.labels ≤ after.labels
  loops : after.loops = []
  marks : MarksIn before.labels after.labels function.code
  landing : Landing function.code

variable {body closing : List Instr} {name : String} {program : Program}

theorem marksOf_framed {function : Function}
    (code : function.code = Instr.enter name :: (body ++ closing))
    (plain : ∀ instr ∈ closing, instr.isPlain = true) :
    marksOf function.code = marksOf body := by
  have framed : marksOf (Instr.enter name :: (body ++ closing)) = marksOf (body ++ closing) := rfl
  rw [code, framed, marksOf_append, marksOf_of_plain plain, append_nil]

theorem Draft.Lowers.labelled_function {draft final : Draft} {declared : Bindings}
    (lowers : draft.Lowers declared body final)
    (loops : draft.context.loops = [])
    {function : Function} (code : function.code = Instr.enter name :: (body ++ closing))
    (simple : ∀ instr ∈ closing, instr.isSimple = true) :
    function.Labelled draft.context final.context := by
  have marks := marksOf_framed code fun instr member =>
    Instr.isPlain_of_isSimple (simple instr member)
  refine ⟨lowers.issued.labels, lowers.loops.trans loops, ?_, ?_⟩
  · obtain ⟨numbers, same, rest⟩ := lowers.marks
    exact ⟨numbers, marks ▸ same, rest⟩
  · have exits : draft.context.exits = [] := by
      simp [Context.exits, Context.breakTarget?, Context.continueTarget?, loops]
    have targets : jumpTargets function.code = jumpTargets body := by
      rw [code, jumpTargets_cons, jumpTargets_append, jumpTargets_of_simple simple, append_nil]
      rfl
    have lands := lowers.lands
    rw [Landing, marks, targets]
    rwa [LandsIn, exits, append_nil] at lands

theorem Closes.isSimple {origin : Origin} (closes : Closes origin body closing) :
    ∀ instr ∈ closing, instr.isSimple = true := by
  cases closes with
  | returned => exact forall_mem_nil _
  | ended => exact forall_mem_singleton.mpr (by cases origin <;> rfl)

theorem Closes.isPlain {origin : Origin} (closes : Closes origin body closing) :
    ∀ instr ∈ closing, instr.isPlain = true :=
  fun instr member => Instr.isPlain_of_isSimple (closes.isSimple instr member)

section

variable {around : Surroundings} {strict : Prop} {context after : Context}
  (loops : context.loops = [])
include loops

theorem Derives.labelled {origin : Origin} {final : Draft} {function : Function}
    (derives : Derives around strict origin context final function) :
    function.Labelled context final.context := by
  obtain ⟨body, closing, lowered, code, closes⟩ := derives.framed
  obtain ⟨_, lowers, _⟩ := origin.lowers_of_lower lowered
  have start := origin.context_draft context
  have labelled := lowers.labelled_function (start.symm ▸ loops) code closes.isSimple
  rwa [start] at labelled

theorem Chain.labelled {origins : List Origin} {functions : List Function}
    (chain : Chain around strict context origins functions after) :
    functions.map Function.name = origins.map Origin.name ∧ context.labels ≤ after.labels ∧
      MarksIn context.labels after.labels (functions.flatMap Function.code) ∧
      ∀ function ∈ functions, Landing function.code := by
  induction chain with
  | nil => exact ⟨rfl, Nat.le_refl _, .of_none rfl _ _, forall_mem_nil _⟩
  | cons derives _ ih =>
    have here := derives.labelled loops
    obtain ⟨names, issued, marks, landing⟩ := ih here.loops
    exact ⟨congrArg₂ List.cons derives.name names, Nat.le_trans here.issued issued,
      here.marks.append marks here.issued issued, forall_mem_cons.mpr ⟨here.landing, landing⟩⟩

end

/-- No label stands twice in the program, and every jump has its label. -/
structure Program.Labelled (program : Program) : Prop where
  distinct : (marksOf (program.functions.flatMap Function.code)).Nodup
  issued : ∀ name ∈ marksOf (program.functions.flatMap Function.code),
    ∃ number, name = labelName number
  landing : ∀ function ∈ program.functions, Landing function.code

theorem ofTree_labelled {scopes : ScopeTrace} {suppress : Bool} {tree : Tree} {context : Context}
    (lowered : Program.ofTree scopes suppress tree = .ok (program, context)) :
    program.Labelled ∧ program.functions.map Function.name =
      entryName :: (Declared.all tree).map Declared.name := by
  have loosely : False → tree.isTyped scopes = true := False.elim
  obtain ⟨names, _, all, landing⟩ := (ofTree_chain lowered loosely).1.labelled rfl
  refine ⟨⟨all.nodup, fun label member => ?_, landing⟩, names.trans ?_⟩
  · obtain ⟨numbers, same, _, _⟩ := all
    obtain ⟨number, _, rfl⟩ := mem_map.mp (same.mem_iff.mp member)
    exact ⟨number, rfl⟩
  · exact congrArg (List.cons entryName) (List.map_map ..)

theorem Program.Labelled.optimize (labelled : program.Labelled) :
    program.optimize.program.Labelled ∧
      program.optimize.program.functions.map Function.name =
        program.functions.map Function.name := by
  obtain ⟨passes, swept⟩ := optimize_program program
  rw [swept, mapFunctions]
  have keeps : Forall₂ Function.KeepsLanding program.functions
      (program.functions.map (Function.after passes)) :=
    forall₂_map_right_iff.mpr
      (forall₂_same.mpr fun function _ => function.keepsLanding_after passes)
  have marks := marks_of_keepsLanding keeps
  refine ⟨⟨labelled.distinct.sublist marks, fun name member =>
    labelled.issued name (marks.subset member),
    forall_mem_of_forall₂ keeps Function.KeepsLanding.landing labelled.landing⟩, ?_⟩
  rw [List.map_map]
  exact map_congr_left fun function _ =>
    function.name_after passes

end ArmBackend.Ir
