import ArmBackend.Proofs.Passes.Trimming

/-!
# Sweeps keep the behaviour

Each pass leaves regular code regular, and each function matches what a pass makes of it.
So passes can be run over the functions of a program one after the other, and what is seen
of the program stays the same.  Of programs that are not regular they keep the effects: each
store, call, argument and print stays where it is, with its place, its label and its line.
-/

namespace ArmBackend.Ir

open List

section

variable {strict : Prop} {code : List Instr}

theorem Regular.tidyJumps (regular : Regular (.empty strict) code) :
    Regular (.empty strict) (tidyJumps code).code := by
  have short := regular.dropShortJumps
  rw [← regular.dropIdle_code] at short
  exact (inverts_invertBranches _).regular short

/-- Every pass leaves regular code regular. -/
theorem Regular.revise (regular : Regular (.empty strict) code) (pass : Pass) :
    Regular (.empty strict) (pass.revise code).code := by
  cases pass with
  | propagation => exact Propagation.regular_run (Known.fits_nil _) regular
  | folding => exact regular.foldConstants
  | deadCode => exact (thins_isNeeded code).regular regular
  | loadForwarding => exact regular.ahead.regular_code
  | labels => exact (thins_isReachableMark code).regular regular
  | jumps => exact regular.tidyJumps

end

/-- The code of the function is regular, no label stands twice in it, and every jump has one to go
to. -/
structure Function.Sound (strict : Prop) (function : Function) : Prop where
  regular : Regular (.empty strict) function.code
  labels : (marksOf function.code).Nodup
  landing : Landing function.code

variable {function : Function} {change : Function → Function} {program : Program} {strict : Prop}

theorem Function.Sound.run (sound : function.Sound strict) (pass : Pass) :
    (pass.run function).1.Sound strict where
  regular := sound.regular.revise pass
  labels := sound.labels.sublist (pass.trims function.code).marks
  landing := by
    have trims := pass.trims function.code
    exact trims.landing (fun name unused wanted => unused (trims.targets wanted)) sound.landing

/-! ## Functions that are replaced -/

/-- The functions have one name and match. -/
def Function.Renews (setting : Setting) (function other : Function) : Prop :=
  other.name = function.name ∧ ∃ rel, Matches setting function other rel

namespace Function.Sound

variable {function : Function} (sound : function.Sound True) (setting : Setting)
include sound

/-- A function without its short jumps. -/
theorem dropShortJumps :
    { function with code := (dropShortJumps function.code).code }.Sound True := by
  have trims : Trims False (fun _ => False) function.code _ := trims_dropShortJumps function.code
  exact ⟨sound.regular.dropShortJumps, sound.labels.sublist trims.marks,
    trims.landing nofun sound.landing⟩

theorem renews_dropShortJumps :
    function.Renews setting { function with code := (Ir.dropShortJumps function.code).code } :=
  ⟨rfl, _, (tracks_dropShortJumps function sound.labels sound.regular.namesEdges).matches rfl
    sound.regular sound.dropShortJumps.regular setting⟩

theorem renews_invertBranches :
    function.Renews setting { function with code := (invertBranches function.code).code } :=
  ⟨rfl, _, (tracks_invertBranches function sound.labels sound.regular.namesEdges
    sound.landing).matches rfl sound.regular
      ((inverts_invertBranches function.code).regular sound.regular) setting⟩

theorem run_jumps : (Pass.jumps.run function).1 =
    { function with code := (invertBranches (Ir.dropShortJumps function.code).code).code } := by
  simp only [Pass.run, Pass.revise, tidyJumps, Revision.andThen, sound.regular.dropIdle_code]

end Function.Sound

/-- The program with a change of all its functions. -/
def Program.mapFunctions (program : Program) (change : Function → Function) : Program :=
  { program with functions := program.functions.map change }

theorem Program.alike_mapFunctions (env : Env) (program : Program)
    (renews : ∀ function ∈ program.functions, function.Renews env.toSetting (change function)) :
    program.Alike env (program.mapFunctions change) := by
  refine Replaces.alike (replaces_of_forall₂ ?_)
  exact forall₂_map_right_iff.mpr (forall₂_same.mpr renews)

theorem Program.mapFunctions_mapFunctions (program : Program) (first second : Function → Function) :
    (program.mapFunctions first).mapFunctions second =
      program.mapFunctions fun function => second (first function) := by
  simp only [mapFunctions, List.map_map, Function.comp_def]

/-- All functions of the program are sound. -/
def Program.Sound (strict : Prop) (program : Program) : Prop :=
  ∀ function ∈ program.functions, function.Sound strict

theorem Program.Sound.mapFunctions (sound : program.Sound strict)
    (kept : ∀ function : Function, function.Sound strict → (change function).Sound strict) :
    (program.mapFunctions change).Sound strict := by
  intro function member
  obtain ⟨original, inside, rfl⟩ := mem_map.mp member
  exact kept original (sound original inside)

/-- The function after passes in a row. -/
def Function.after (passes : List Pass) (function : Function) : Function :=
  passes.foldl (fun function pass => (pass.run function).1) function

variable (passes : List Pass)

/-- Passes change the code of a function only. -/
theorem Function.after_eq (function : Function) :
    function.after passes = { function with code := (function.after passes).code } := by
  induction passes generalizing function with
  | nil => rfl
  | cons pass rest ih => exact ih (pass.run function).1

theorem Function.name_after (function : Function) :
    (function.after passes).name = function.name := by
  rw [after_eq]

/-- The code is trimmed, and the labels that its jumps go to stay. -/
def Function.KeepsLanding (function other : Function) : Prop :=
  Trims True (· ∉ jumpTargets other.code) function.code other.code

/-- Passes in a row trim the code of a function. -/
theorem Function.keepsLanding_after (function : Function) :
    function.KeepsLanding (function.after passes) := by
  induction passes generalizing function with
  | nil => exact Trims.refl _
  | cons pass rest ih =>
    have first := pass.trims function.code
    have later : Trims True _ _ _ := ih (pass.run function).1
    refine Trims.trans (first.mono fun name unused wanted => ?_) later
    exact unused (first.targets (later.targets wanted))

/-- The instructions of the code that have effects. -/
def effects (code : List Instr) : List Instr :=
  code.filter (·.opcode.isStanding)

theorem Function.effects_after (function : Function) :
    Forall₂ Instr.Keeps (effects function.code) (effects (function.after passes).code) :=
  Trims.standing (function.keepsLanding_after passes)

theorem Function.KeepsLanding.landing {other : Function} (keeps : function.KeepsLanding other)
    (landing : Landing function.code) : Landing other.code :=
  Trims.landing keeps (fun _ => id) landing

theorem marks_of_keepsLanding {functions swept : List Function}
    (keeps : Forall₂ Function.KeepsLanding functions swept) :
    (marksOf (swept.flatMap Function.code)).Sublist (marksOf (functions.flatMap Function.code)) := by
  induction keeps with
  | nil => exact List.Sublist.refl _
  | cons head _ ih =>
    rw [flatMap_cons, flatMap_cons, marksOf_append, marksOf_append]
    exact (Trims.marks head).append ih

theorem Function.Sound.after (sound : function.Sound strict) (passes : List Pass) :
    (function.after passes).Sound strict := by
  induction passes generalizing function with
  | nil => exact sound
  | cons pass rest ih => exact ih (sound.run pass)

section

variable {env : Env} (floats : env.floats = .binary64) {program : Program}
  (sound : program.Sound True)
include sound

theorem Program.Sound.alike_jumps :
    program.Alike env (program.mapFunctions fun function => (Pass.jumps.run function).1) := by
  have one := program.alike_mapFunctions env fun function member =>
    (sound function member).renews_dropShortJumps env.toSetting
  have two := (program.mapFunctions _).alike_mapFunctions env fun function member =>
    (sound.mapFunctions (fun _ sound => sound.dropShortJumps) function
      member).renews_invertBranches env.toSetting
  have both := one.trans two
  rw [Program.mapFunctions_mapFunctions] at both
  rwa [Program.mapFunctions, map_congr_left fun function member => (sound function member).run_jumps]

include floats

/-- A pass over all functions is not seen. -/
theorem Program.Sound.alike_pass (pass : Pass) :
    program.Alike env (program.mapFunctions fun function => (pass.run function).1) := by
  by_cases jumps : pass = .jumps
  · subst jumps
    exact sound.alike_jumps
  refine program.alike_mapFunctions env fun function member => ?_
  have regular := (sound function member).regular
  cases pass with
  | jumps => exact absurd rfl jumps
  | propagation => exact ⟨rfl, _, matches_propagateConstants env.toSetting regular⟩
  | folding => exact ⟨rfl, _, matches_foldConstants floats regular⟩
  | deadCode => exact ⟨rfl, _, (thins_isNeeded _).matches regular env.toSetting⟩
  | loadForwarding => exact ⟨rfl, _, matches_forwardLoads env.toSetting regular⟩
  | labels => exact ⟨rfl, _, (thins_isReachableMark _).matches regular env.toSetting⟩

/-- Passes in a row over all functions are not seen. -/
theorem Program.Sound.alike_after (passes : List Pass) :
    program.Alike env (program.mapFunctions (Function.after passes)) := by
  induction passes generalizing program with
  | nil =>
    have same : program.mapFunctions (Function.after []) = program :=
      congrArg (fun functions => { program with functions }) (List.map_id program.functions)
    rw [same]
    exact .refl env program
  | cons pass rest ih =>
    have later := ih (sound.mapFunctions fun _ sound => sound.run pass)
    rw [Program.mapFunctions_mapFunctions] at later
    exact (sound.alike_pass floats pass).trans later

end

/-! ## Sweeps -/

theorem sweepFunction_result (warnings : WarningLog) (function : Function) :
    (sweepFunction passes warnings function).result = function.after passes := by
  induction passes generalizing warnings function with
  | nil => rfl
  | cons pass rest ih => exact ih _ _

theorem sweepFunctions_result (warnings : WarningLog) (functions : List Function) :
    (sweepFunctions passes warnings functions).result =
      functions.map (Function.after passes) := by
  induction functions generalizing warnings with
  | nil => rfl
  | cons function rest ih =>
    rw [map_cons, ← ih, ← sweepFunction_result passes warnings]
    rfl

/-- Sweeps are passes in a row over all functions. -/
theorem iterate_functions (budget : Nat) (state : Optimized) :
    ∃ all : List Pass, (state.iterate passes budget).functions =
      state.functions.map (Function.after all) := by
  induction budget generalizing state with
  | zero => exact ⟨[], (List.map_id state.functions).symm⟩
  | succ budget ih =>
    have once : (state.sweep passes).functions = state.functions.map (Function.after passes) :=
      sweepFunctions_result passes state.warnings state.functions
    rw [Optimized.iterate]
    split
    · exact ⟨passes, once⟩
    · obtain ⟨more, later⟩ := ih (state.sweep passes)
      refine ⟨passes ++ more, ?_⟩
      rw [later, once, List.map_map]
      refine map_congr_left fun function _ => ?_
      rw [Function.comp_apply, Function.after, Function.after, Function.after, foldl_append]

theorem optimize_program (program : Program) :
    ∃ all : List Pass, program.optimize.program = program.mapFunctions (Function.after all) := by
  obtain ⟨all, same⟩ := iterate_functions Pass.standard maxSweeps
    { functions := program.functions, changes := Pass.standard.map fun _ => 0 }
  exact ⟨all, congrArg (fun functions => { program with functions }) same⟩

/--
Of any program the optimizer changes the code of functions only, and in the code it keeps what
has effects, in number and order.  Such an instruction may get other values and other indices.
-/
theorem optimize_keeps_effects (program : Program) :
    program.optimize.program =
        { program with functions := program.optimize.program.functions } ∧
      List.Forall₂ (fun function optimized =>
          optimized = { function with code := optimized.code } ∧
            List.Forall₂ Instr.Keeps (effects function.code) (effects optimized.code))
        program.functions program.optimize.program.functions := by
  obtain ⟨passes, same⟩ := optimize_program program
  rw [same]
  refine ⟨rfl, ?_⟩
  rw [Program.mapFunctions, List.forall₂_map_right_iff, List.forall₂_same]
  exact fun function _ => ⟨function.after_eq passes, function.effects_after passes⟩

end ArmBackend.Ir
