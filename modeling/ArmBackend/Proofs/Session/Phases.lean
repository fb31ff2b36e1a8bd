import ArmBackend.Proofs.Lowering.Misuse
import ArmBackend.Proofs.Machine.Tidying
import ArmBackend.Proofs.Passes.Sweeps
import ArmBackend.Session

/-!
# Phases in any order

A session can be asked for its phases in any order and as often as one likes.  Whatever it
is asked for, it goes along the chain of phases or fails, it is told of an error exactly if
it has failed, and what it has counted are the instructions of what it holds.
-/

namespace ArmBackend

open List

/-! ## Instruction counts -/

namespace Ir

/-- Sweeps make no program longer. -/
theorem Program.instrCount_optimize (program : Program) :
    program.optimize.program.instrCount ≤ program.instrCount := by
  obtain ⟨passes, swept⟩ := optimize_program program
  rw [swept]
  simp only [instrCount, mapFunctions]
  induction program.functions with
  | nil => exact Nat.le_refl _
  | cons function rest ih => exact Nat.add_le_add (Trims.length_le (function.keepsLanding_after passes)) ih

theorem Program.instrCount_setFrameSize (name : String) (size : Nat) (functions : List Function) :
    (setFrameSize name size functions).foldr (fun function count => function.code.length + count) 0 =
      functions.foldr (fun function count => function.code.length + count) 0 := by
  induction functions with
  | nil => rfl
  | cons function rest ih =>
    rw [setFrameSize]
    split
    · rfl
    · exact congrArg (function.code.length + ·) ih

end Ir

namespace Machine

/-- The machine instructions among lines. -/
def machineCount (code : List Instr) : Nat :=
  code.countP Instr.isMachine

theorem machineCount_cons (instr : Instr) (rest : List Instr) :
    machineCount (instr :: rest) = machineCount rest + if instr.isMachine then 1 else 0 :=
  countP_cons ..

theorem machineCount_tidyCode (rules : List Rule) (code : List Instr) :
    machineCount (tidyCode rules code).code ≤ machineCount code := by
  obtain ⟨hits, reduces⟩ := reduces_tidyCode rules code
  refine reduces.invariant (fun code result => machineCount result ≤ machineCount code)
    (fun _ => Nat.le_refl _) (fun one two => Nat.le_trans two one) fun before after _ _ rewrites => ?_
  simp only [machineCount, countP_append]
  cases rewrites <;> simp [countP_cons, Instr.isMachine]

theorem machineCount_withoutShortJumps (code : List Instr) :
    machineCount (withoutShortJumps code) ≤ machineCount code := by
  induction code with
  | nil => exact Nat.le_refl _
  | cons instr rest ih =>
    rw [machineCount_cons instr]
    rcases withoutShortJumps_cons instr rest with ⟨_, _, _, dropped⟩ | kept
    · rw [dropped]
      exact Nat.le_add_right_of_le ih
    · rw [kept, machineCount_cons]
      exact Nat.add_le_add_right ih _

theorem Program.instrCount_tidyWith (rules : List Rule) (program : Program) :
    (program.tidyWith rules).1.instrCount ≤ program.instrCount := by
  simp only [tidyWith, instrCount]
  induction program.functions with
  | nil => exact Nat.le_refl _
  | cons function rest ih =>
    have body : machineCount (tidyCode rules (dropJumpsToNext function.body).code).code ≤
        machineCount function.body :=
      Nat.le_trans (machineCount_tidyCode rules _) (machineCount_withoutShortJumps _)
    exact Nat.add_le_add body ih

end Machine

/-! ## Warnings -/

/-- None of the diagnostics is an error. -/
def Harmless (diagnostics : List Diagnostic) : Prop :=
  ∀ diagnostic ∈ diagnostics, diagnostic.severity ≠ .error

namespace Machine

theorem harmless_warning? (function : String) (instr : Ir.Instr) :
    Harmless (warning? function instr).toList := by
  intro diagnostic member
  simp only [warning?, Option.mem_toList] at member
  split at member
  · cases member
    exact nofun
  · split at member
    · cases member
      exact nofun
    · cases member

theorem harmless_selectCode (site : Site) (function : String) (pending : Pending)
    (code : List Ir.Instr) : Harmless (selectCode site function pending code).warnings := by
  induction code generalizing pending with
  | nil => exact nofun
  | cons instr rest ih =>
    rw [selectCode]
    split
    · exact nofun
    · exact forall_mem_append.mpr ⟨harmless_warning? function instr, ih _⟩

theorem harmless_ofIr (globals : List Ir.Global) (function : Ir.Function) :
    Harmless (Function.ofIr globals function).warnings := by
  rw [Function.ofIr]
  split
  · exact nofun
  · exact harmless_selectCode _ _ _ _

theorem harmless_ofIrs (globals : List Ir.Global) (functions : List Ir.Function) :
    Harmless (Function.ofIrs globals functions).warnings := by
  induction functions with
  | nil => exact nofun
  | cons function rest ih =>
    have first := harmless_ofIr globals function
    simp only [Function.ofIrs]
    split
    · exact first
    · exact forall_mem_append.mpr ⟨first, ih⟩

end Machine

/-! ## What a call does -/

/-- One step along the chain of phases; the sweeps and the window rules may be passed over. -/
inductive Progress.Leads : Progress → Progress → Prop where
  | lowered : Leads idle irGenerated
  | swept : Leads irGenerated irOptimized
  | assembled : Leads irGenerated asmGenerated
  | assembledSwept : Leads irOptimized asmGenerated
  | tidied : Leads asmGenerated asmOptimized
  | checked : Leads asmGenerated validated
  | checkedTidied : Leads asmOptimized validated

theorem Progress.Leads.going {progress next : Progress} (leads : progress.Leads next) :
    progress ≠ failed ∧ next ≠ failed := by
  cases leads <;> exact ⟨nofun, nofun⟩

namespace Session

/-- The session has the program and the assembly that its progress promises. -/
structure Equipped (session : Session) : Prop where
  program : session.progress ∉ [.idle, .failed] → session.program.isSome = true
  assembly : session.progress ∈ [.asmGenerated, .asmOptimized, .validated] →
    session.assembly.isSome = true

/-- The counters are those of the program and the assembly that there are. -/
structure Counts (session : Session) : Prop where
  ir : ∀ program, session.program = some program →
    session.stats.irOptimized = program.instrCount ∧
      session.stats.irOptimized ≤ session.stats.irGenerated
  asm : ∀ assembly, session.assembly = some assembly →
    session.stats.asmOptimized = assembly.instrCount ∧
      session.stats.asmOptimized ≤ session.stats.asmGenerated

/-- The error does not say that there is no program or no assembly. -/
def Finds (error : CompileError) : Prop :=
  ∀ message, error = .internal message → message.toList.head? ≠ some 'n'

theorem finds_internal {message : String} (first : message.toList.head? ≠ some 'n') :
    Finds (.internal message) := by
  rintro _ ⟨⟩
  exact first

/-- All that a call for a phase can do. -/
inductive Goes (session : Session) (phase : Phase) : Step → Prop where
  | stays {message : String} (failed : session.progress = .failed)
      (finds : Finds (.internal message)) : Goes session phase ⟨session, some (.internal message)⟩
  | fails {report : Report} {stats : Statistics} {error : CompileError}
      (going : session.progress ≠ .failed) (finds : session.Equipped → Finds error)
      (kept : stats = session.stats ∨ phase = .validate ∧ session.progress ∈ phase.allowed ∧
        stats = session.stats.record phase.title) :
      Goes session phase ({ session with report, stats }.fail error)
  | advances {next : Session} (told : List Diagnostic) (leads : session.progress.Leads next.progress)
      (grown : next.report.diagnostics = session.report.diagnostics ++ told)
      (harmless : Harmless told) (equips : session.Equipped → next.Equipped)
      (counts : session.Counts → next.Counts) : Goes session phase (succeed next)

section

variable (session : Session)

theorem goes_enter (phase : Phase) {work : Session → Step}
    (works : session.progress ∈ phase.allowed → session.progress ≠ .failed →
      session.Goes phase (work session)) : session.Goes phase (session.enter phase work) := by
  have first (rest : String) : (phase.request ++ rest).toList.head? ≠ some 'n' := by
    rw [String.toList_append]
    cases phase <;> simp [Phase.request]
  unfold enter
  split
  · next failed => exact .stays failed (finds_internal (first _))
  · next going =>
      split
      · next allowed => exact works allowed going
      · refine .fails going (fun _ => finds_internal ?_) (.inl rfl)
        rw [String.append_assoc, String.append_assoc]
        exact first _

theorem goes_generateIr (input : Input) : session.Goes .generateIr (session.generateIr input) := by
  refine session.goes_enter _ fun allowed going => ?_
  have idle : session.progress = .idle := mem_singleton.mp allowed
  dsimp only
  split
  · split
    · next error failed =>
        obtain ⟨misuse, _, rfl⟩ := ((Ir.ofTree_failsAt ..).error_iff error).mp failed
        exact .fails going (fun _ _ same => by cases same) (.inl rfl)
    · next program context lowered =>
        refine .advances _ (idle ▸ .lowered) rfl ?_ (fun _ => ⟨fun _ => rfl, ?_⟩) fun counts =>
          ⟨fun same held => ?_, counts.asm⟩
        · intro diagnostic member
          obtain ⟨finding, warned, rfl⟩ := mem_map.mp member
          rw [Finding.toDiagnostic, if_pos (mem_filter.mp warned).2]
          exact nofun
        · intro member
          simp at member
        · cases held
          exact ⟨rfl, Nat.le_refl _⟩
  · exact .fails going (fun _ _ same => by cases same) (.inl rfl)

/-- Where the program is asked for, there is one. -/
theorem Equipped.absurd_program {session : Session} (equipped : session.Equipped)
    (there : session.progress ∉ [.idle, .failed]) (none : session.program = none) : False := by
  have some := equipped.program there
  rw [none] at some
  cases some

theorem Equipped.absurd_assembly {session : Session} (equipped : session.Equipped)
    (there : session.progress ∈ [.asmGenerated, .asmOptimized, .validated])
    (none : session.assembly = none) : False := by
  have some := equipped.assembly there
  rw [none] at some
  cases some

theorem goes_optimizeIr : session.Goes .optimizeIr session.optimizeIr := by
  refine session.goes_enter _ fun allowed going => ?_
  have lowered : session.progress = .irGenerated := mem_singleton.mp allowed
  split
  · next none =>
      refine .fails going (fun equipped => (equipped.absurd_program ?_ none).elim) (.inl rfl)
      rw [lowered]
      decide
  · next program held =>
      refine .advances _ (lowered ▸ .swept) rfl ?_ (fun _ => ⟨fun _ => rfl, ?_⟩) fun counts =>
        ⟨fun same given => ?_, counts.asm⟩
      · intro diagnostic member
        obtain ⟨warning, _, rfl⟩ := mem_map.mp member
        exact nofun
      · intro member
        simp at member
      · cases given
        obtain ⟨counted, most⟩ := counts.ir program held
        refine ⟨rfl, Nat.le_trans ?_ most⟩
        rw [counted]
        exact program.instrCount_optimize

theorem instrCount_recordFrames (assembly : Machine.Program) (program : Ir.Program) :
    (recordFrames assembly program).instrCount = program.instrCount := by
  simp only [recordFrames, Ir.Program.instrCount]
  generalize program.functions = functions
  induction assembly.functions generalizing functions with
  | nil => rfl
  | cons function rest ih => exact (ih _).trans (Ir.Program.instrCount_setFrameSize ..)

theorem goes_generateAsm : session.Goes .generateAsm session.generateAsm := by
  refine session.goes_enter _ fun allowed going => ?_
  have lowered : session.progress = .irGenerated ∨ session.progress = .irOptimized := by
    simpa [Phase.allowed] using allowed
  split
  · next none =>
      refine .fails going (fun equipped => (equipped.absurd_program ?_ none).elim) (.inl rfl)
      rcases lowered with same | same <;> rw [same] <;> decide
  · next program held =>
      dsimp only
      split
      · exact .fails going (fun _ _ same => by cases same) (.inl rfl)
      · next assembly assembled =>
          refine .advances _ ?_ rfl (Machine.harmless_ofIrs _ _)
            (fun _ => ⟨fun _ => rfl, fun _ => rfl⟩) fun counts =>
              ⟨fun framed given => ?_, fun last given => ?_⟩
          · rcases lowered with same | same
            · exact same ▸ .assembled
            · exact same ▸ .assembledSwept
          · cases given
            rw [instrCount_recordFrames]
            exact counts.ir program held
          · cases given
            exact ⟨rfl, Nat.le_refl _⟩

theorem goes_optimizeAsm : session.Goes .optimizeAsm session.optimizeAsm := by
  refine session.goes_enter _ fun allowed going => ?_
  have assembled : session.progress = .asmGenerated := mem_singleton.mp allowed
  split
  · next none =>
      refine .fails going (fun equipped => (equipped.absurd_assembly ?_ none).elim) (.inl rfl)
      rw [assembled]
      decide
  · next assembly held =>
      refine .advances [] (assembled ▸ .tidied) (append_nil _).symm nofun
        (fun equipped => ⟨fun _ => equipped.program ?_, fun _ => rfl⟩) fun counts =>
          ⟨counts.ir, fun last given => ?_⟩
      · rw [assembled]
        decide
      · cases given
        obtain ⟨counted, most⟩ := counts.asm assembly held
        refine ⟨rfl, Nat.le_trans ?_ most⟩
        rw [counted]
        exact assembly.instrCount_tidyWith _

theorem goes_validate : session.Goes .validate session.validate := by
  refine session.goes_enter _ fun allowed going => ?_
  have assembled : session.progress = .asmGenerated ∨ session.progress = .asmOptimized := by
    simpa [Phase.allowed] using allowed
  have there : session.progress ∈ [.asmGenerated, .asmOptimized, .validated] ∧
      session.progress ∉ [.idle, .failed] := by
    rcases assembled with same | same <;> rw [same] <;> decide
  split
  · next none =>
      exact .fails going (fun equipped => (equipped.absurd_assembly there.1 none).elim) (.inl rfl)
  · next assembly held =>
      dsimp only
      split
      · refine .advances [] ?_ (append_nil _).symm nofun
          (fun equipped => ⟨fun _ => equipped.program there.2, fun _ => equipped.assembly there.1⟩)
          fun counts => ⟨counts.ir, counts.asm⟩
        rcases assembled with same | same
        · exact same ▸ .checked
        · exact same ▸ .checkedTidied
      · refine .fails going (fun _ => finds_internal ?_) (.inr ⟨rfl, allowed, rfl⟩)
        rw [String.append_assoc, String.toList_append]
        exact nofun

theorem goes_run (input : Input) (phase : Phase) : session.Goes phase (session.run input phase) := by
  cases phase with
  | generateIr => exact session.goes_generateIr input
  | optimizeIr => exact session.goes_optimizeIr
  | generateAsm => exact session.goes_generateAsm
  | optimizeAsm => exact session.goes_optimizeAsm
  | validate => exact session.goes_validate

end

/-! ## What any calls do -/

/-- The session has what its progress promises, has been told of an error exactly if it has failed,
and has counted right. -/
structure Sound (session : Session) : Prop where
  equipped : session.Equipped
  errors : session.progress = .failed ↔
    ∃ diagnostic ∈ session.report.diagnostics, diagnostic.severity = .error
  counts : session.Counts

theorem sound_start (options : Options) : (start options).Sound where
  equipped := ⟨by simp [start], by simp [start]⟩
  errors := by simp [start, Report.empty]
  counts := ⟨nofun, nofun⟩

namespace Goes

variable {session : Session} {phase : Phase} {step : Step} (goes : session.Goes phase step)
include goes

theorem sound (sound : session.Sound) : step.session.Sound := by
  cases goes with
  | stays => exact sound
  | fails going finds kept =>
    refine ⟨⟨by simp [fail], by simp [fail]⟩,
      iff_of_true rfl ⟨_, mem_append_right _ (mem_singleton.mpr rfl), rfl⟩, ?_⟩
    rcases kept with rfl | ⟨_, _, rfl⟩ <;> exact ⟨sound.counts.ir, sound.counts.asm⟩
  | @advances next told leads grown harmless equips counts =>
    refine ⟨equips sound.equipped, iff_of_false leads.going.2 ?_, counts sound.counts⟩
    rintro ⟨diagnostic, member, error⟩
    have member : diagnostic ∈ session.report.diagnostics ++ told := grown ▸ member
    rcases mem_append.mp member with before | now
    · exact leads.going.1 (sound.errors.mpr ⟨diagnostic, before, error⟩)
    · exact harmless diagnostic now error

theorem moves : (step.error = none ∧ session.progress.Leads step.session.progress) ∨
    (step.error.isSome = true ∧ step.session.progress = .failed) := by
  cases goes with
  | stays failed => exact .inr ⟨rfl, failed⟩
  | fails => exact .inr ⟨rfl, rfl⟩
  | advances _ leads => exact .inl ⟨rfl, leads⟩

/-- A session that has failed is left as it is. -/
theorem final (failed : session.progress = .failed) :
    step.session = session ∧ ∃ message, step.error = some (.internal message) := by
  cases goes with
  | stays => exact ⟨rfl, _, rfl⟩
  | fails going => exact absurd failed going
  | advances _ leads => exact absurd failed leads.going.1

theorem finds (equipped : session.Equipped) : ∀ error ∈ step.error, Finds error := by
  intro error returned
  cases goes with
  | stays _ finds =>
    cases returned
    exact finds
  | fails _ finds =>
    cases returned
    exact finds equipped
  | advances => cases returned

theorem keeps (failed : step.error.isSome = true) :
    step.session.program = session.program ∧ step.session.assembly = session.assembly ∧
    (step.session.stats = session.stats ∨
      phase = .validate ∧ session.progress ∈ phase.allowed) := by
  cases goes with
  | stays => exact ⟨rfl, rfl, .inl rfl⟩
  | fails going finds kept =>
    exact ⟨rfl, rfl, kept.imp id fun ⟨asked, allowed, _⟩ => ⟨asked, allowed⟩⟩
  | advances => cases failed

end Goes

/-- The session after calls in a row, each for a phase with an input at hand. -/
def after (session : Session) (calls : List (Input × Phase)) : Session :=
  calls.foldl (fun session call => (session.run call.1 call.2).session) session

theorem Sound.after {session : Session} (sound : session.Sound) (calls : List (Input × Phase)) :
    (session.after calls).Sound := by
  induction calls generalizing session with
  | nil => exact sound
  | cons call rest ih => exact ih ((session.goes_run call.1 call.2).sound sound)

/--
After any calls a session has what its progress promises, so that no phase misses what it works
on; it is failed exactly if it was told of an error, and its counters are those of what it has.
Every further call takes it one step along the chain or leaves it failed with all that it had, and
then for good.
-/
theorem after_calls_conforms (options : Options) (calls : List (Input × Phase)) (input : Input)
    (phase : Phase) :
    let session := (start options).after calls
    let step := session.run input phase
    ((step.error = none ∧ session.progress.Leads step.session.progress) ∨
      (step.error.isSome = true ∧ step.session.progress = .failed)) ∧
    (session.progress = .failed →
      step.session = session ∧ ∃ message, step.error = some (.internal message)) ∧
    (session.progress = .failed ↔
      ∃ diagnostic ∈ session.report.diagnostics, diagnostic.severity = .error) ∧
    (session.progress ∉ [.idle, .failed] → session.program.isSome = true) ∧
    (session.progress ∈ [.asmGenerated, .asmOptimized, .validated] →
      session.assembly.isSome = true) ∧
    (∀ message, step.error = some (.internal message) →
      ¬ "no IR program".toList <+: message.toList ∧ ¬ "no assembly".toList <+: message.toList) ∧
    (step.error.isSome = true →
      step.session.program = session.program ∧ step.session.assembly = session.assembly ∧
      (step.session.stats = session.stats ∨
        phase = .validate ∧ session.progress ∈ phase.allowed)) ∧
    (∀ program, session.program = some program →
      session.stats.irOptimized = program.instrCount ∧
      session.stats.irOptimized ≤ session.stats.irGenerated) ∧
    (∀ assembly, session.assembly = some assembly →
      session.stats.asmOptimized = assembly.instrCount ∧
      session.stats.asmOptimized ≤ session.stats.asmGenerated) := by
  intro session step
  have sound : session.Sound := (sound_start options).after calls
  have goes : session.Goes phase step := session.goes_run input phase
  refine ⟨goes.moves, goes.final, sound.errors, sound.equipped.program, sound.equipped.assembly, ?_,
    goes.keeps, sound.counts.ir, sound.counts.asm⟩
  intro message returned
  have first := goes.finds sound.equipped _ returned message rfl
  constructor
  · rintro ⟨rest, same⟩
    exact first (same ▸ rfl)
  · rintro ⟨rest, same⟩
    exact first (same ▸ rfl)

end Session

end ArmBackend
