import ArmBackend.Proofs.Ir.Trace
import ArmBackend.Proofs.Lowering.Program
import ArmBackend.Proofs.Lowering.Total

/-!
# Lowering preserves what is printed

The program of a well-formed tree prints what the tree prints, and ends if the tree
ends.
-/

namespace ArmBackend

variable {fuel : Nat} {value : Option Word}

namespace Source

/-- Nothing that the language leaves undefined is ever reached. -/
def Safe (address : String → Word) (tree : Tree) : Prop :=
  ∀ fuel, (run address tree fuel).isFault = false

theorem Safe.not_fault {address : String → Word} {tree : Tree} (safe : Safe address tree)
    {fault : Fault} (outcome : run address tree fuel = .fault fault) : False := by
  have sound := safe fuel
  rw [outcome] at sound
  cases sound

/-- The run of the tree prints the list, and possibly more. -/
def Prints (address : String → Word) (tree : Tree) (output : List Printed) : Prop :=
  ∃ fuel, output <+: (run address tree fuel).output

/-- The run of the tree comes to its end. -/
def Terminates (address : String → Word) (tree : Tree) : Prop :=
  ∃ fuel value world, run address tree fuel = .done value world

end Source

namespace Ir

open Source (World Code Flow)

/-- The run of the program from its entry function. -/
def Program.runEntry (env : Env) (program : Program) (count : Nat) : Config :=
  (program.start env entryName).run env program count

/-- The run of the program prints the list, and possibly more. -/
def Program.Prints (env : Env) (program : Program) (output : List Printed) : Prop :=
  ∃ count, output <+: Event.printedOf (program.runEntry env count).trace

/-- The run of the program comes to its end. -/
def Program.Terminates (env : Env) (program : Program) : Prop :=
  ∃ count, (program.runEntry env count).isHalted = true

/-- What a run of the program has come to when the run of the tree is done. -/
def Finished (_ : Option Word) (world : World) (config : Config) : Prop :=
  config.isHalted = true ∧ Event.printedOf config.trace = world.output

namespace Stage

variable {stage : Stage} {config : Config} {state : State} {world : World}

theorem Poised.halts (alone : stage.callers = [])
    (poised : stage.Poised config (.leave value) state world.output) (given : Option Word) :
    Finished given world (stage.step config) := by
  obtain ⟨instr, rest, ⟨trace, rfl, printed⟩, does⟩ := poised
  have same : instr.effect stage.env.toSetting stage.function.owns
      ⟨state.locals, state.globals⟩ = .leave value := does
  simp only [Stage.step, Config.step, same, Config.perform, alone, Config.leave]
  exact ⟨rfl, (Event.printedOf_silent rfl trace).trans printed⟩

theorem At.halts (alone : stage.callers = []) (here : stage.At config [] state world.output)
    (given : Option Word) : Finished given world (stage.step config) := by
  obtain ⟨trace, rfl, printed⟩ := here
  simp only [Stage.step, Config.step, alone, Config.leave]
  exact ⟨rfl, (Event.printedOf_silent rfl trace).trans printed⟩

end Stage

section

variable {scopes : ScopeTrace} {tree : Tree} {program : Program}
  (compiled : ProgramCode scopes tree program) (well : tree.WellFormed)
  (agrees : scopes.Agrees tree) {env : Env} {address : String → Word}
  (provides : env.Provides program address)
include compiled well agrees provides

theorem run_covered (fuel : Nat) :
    ∃ stage : Stage, stage.env = env ∧ stage.program = program ∧
      stage.Covers fuel (program.start env entryName) (Source.run address tree fuel) Finished := by
  have member : Origin.entry tree.entry ∈ Origin.all tree := List.mem_cons_self ..
  obtain ⟨context, final, function, loops, hit, derives, strings⟩ := compiled _ member
  obtain ⟨body, closing, lowered, code, closes⟩ := derives.framed
  rw [Origin.name] at hit code
  let stage : Stage := ⟨env, program, function, []⟩
  refine ⟨stage, rfl, rfl, ?_⟩
  obtain ⟨fits, admits⟩ : stage.Fits (Code.ofTree address tree) _ ∧ stage.Admits _ final :=
    derives.suits well agrees member loops provides strings
  have handled := handlers_covered (compiled.functionsCovered well agrees provides) fuel
  have started : stage.At (program.start env entryName) (Instr.enter entryName :: (body ++ closing))
      ⟨function.frame env [] [], .zero⟩ World.start.output := by
    refine ⟨[], ?_, rfl⟩
    rw [Program.start, hit, ← code]
    rfl
  have related : Related stage.function [] World.start ⟨function.frame env [] [], .zero⟩ :=
    ⟨rfl, rfl, List.nodup_nil, by intro name slot member; cases member⟩
  have covers := execEntry_covered fits rfl handled (shares_ofTree well agrees address) lowered
    admits (code ▸ List.suffix_cons _ _) related (started.silent rfl rfl)
  refine covers.step.bind fun flow later after ends => ?_
  cases flow with
  | broke | continued => exact True.intro
  | returned value =>
    obtain ⟨state, poised, _⟩ := ends
    exact ⟨1, poised.halts rfl _⟩
  | next =>
    obtain ⟨state, there, _⟩ := ends
    cases closes with
    | returned => exact ⟨1, there.halts rfl _⟩
    | ended => exact ⟨1, Stage.Poised.halts rfl ⟨_, _, there, rfl⟩ _⟩

theorem halts_of_done {world : World} (done : Source.run address tree fuel = .done value world) :
    ∃ count, (program.runEntry env count).isHalted = true ∧
      Event.printedOf (program.runEntry env count).trace = world.output := by
  obtain ⟨stage, rfl, rfl, covers⟩ := run_covered compiled well agrees provides fuel
  rw [done] at covers
  exact covers

theorem runs_of_timeout {output : List Printed}
    (timeout : Source.run address tree fuel = .timeout output) :
    ∃ count, fuel ≤ count ∧ (program.runEntry env count).isRunning = true ∧
      Event.printedOf (program.runEntry env count).trace = output := by
  obtain ⟨stage, rfl, rfl, covers⟩ := run_covered compiled well agrees provides fuel
  rw [timeout] at covers
  exact covers

theorem prefix_output (safe : Source.Safe address tree) (count : Nat) :
    Event.printedOf (program.runEntry env count).trace <+:
      (Source.run address tree count).output := by
  cases outcome : Source.run address tree count with
  | fault fault => exact (safe.not_fault outcome).elim
  | timeout output =>
    obtain ⟨more, enough, _, printed⟩ := runs_of_timeout compiled well agrees provides outcome
    rw [Source.Outcome.output, ← printed]
    exact Config.printed_mono env program enough _
  | done value world =>
    obtain ⟨more, halted, printed⟩ := halts_of_done compiled well agrees provides outcome
    rw [Source.Outcome.output, ← printed]
    cases Nat.le_total count more with
    | inl enough => exact Config.printed_mono env program enough _
    | inr late =>
      have still := Config.not_isRunning_of_isHalted halted
      have same : program.runEntry env count = program.runEntry env more :=
        Config.run_eq_of_le env program still late
      exact same ▸ List.prefix_refl _

end

/--
Lowering preserves what is printed.  A well-formed tree with an agreeing scope trace has
a program.  If the tree reaches nothing undefined, then its program prints the same
values in the same order, whether they are finitely many or not, and terminates if and
only if the tree does.
-/
theorem ofTree_preserves_output {scopes : ScopeTrace} {tree : Tree} (well : tree.WellFormed)
    (agrees : scopes.Agrees tree) {address : String → Word} (safe : Source.Safe address tree)
    (suppress : Bool) :
    ∃ program context, Program.ofTree scopes suppress tree = .ok (program, context) ∧
      ∀ env : Env, env.Provides program address →
        (∀ output, program.Prints env output ↔ Source.Prints address tree output) ∧
        (program.Terminates env ↔ Source.Terminates address tree) := by
  obtain ⟨program, context, lowered⟩ := ofTree_ok agrees well suppress
  have compiled := programCode_ofTree well lowered
  refine ⟨program, context, lowered, fun env provides => ⟨fun output => ⟨?_, ?_⟩, ?_, ?_⟩⟩
  · rintro ⟨count, printed⟩
    exact ⟨count, printed.trans (prefix_output compiled well agrees provides safe count)⟩
  · rintro ⟨fuel, printed⟩
    cases outcome : Source.run address tree fuel with
    | fault fault => exact (safe.not_fault outcome).elim
    | timeout given =>
      obtain ⟨count, _, _, same⟩ := runs_of_timeout compiled well agrees provides outcome
      rw [outcome, Source.Outcome.output, ← same] at printed
      exact ⟨count, printed⟩
    | done value world =>
      obtain ⟨count, _, same⟩ := halts_of_done compiled well agrees provides outcome
      rw [outcome, Source.Outcome.output, ← same] at printed
      exact ⟨count, printed⟩
  · rintro ⟨count, halted⟩
    cases outcome : Source.run address tree count with
    | fault fault => exact (safe.not_fault outcome).elim
    | done value world => exact ⟨count, value, world, outcome⟩
    | timeout output =>
      obtain ⟨more, enough, running, _⟩ := runs_of_timeout compiled well agrees provides outcome
      have still := Config.not_isRunning_of_isHalted halted
      have same : program.runEntry env more = program.runEntry env count :=
        Config.run_eq_of_le env program still enough
      rw [same, still] at running
      cases running
  · rintro ⟨fuel, value, world, done⟩
    obtain ⟨count, halted, _⟩ := halts_of_done compiled well agrees provides done
    exact ⟨count, halted⟩

/-- Two rounds of a loop that call a function with a variable of the top level. -/
def counting : Tree where
  statements :=
    [.varDecl ⟨1, 1⟩ "total" .int none,
      .functionDecl ⟨2, 1⟩ "add" [⟨"step", .int⟩] .int
        [.assign ⟨3, 3⟩ "total"
          (.binary ⟨3, 11⟩ .add (.name ⟨3, 11⟩ "total") (.name ⟨3, 19⟩ "step")),
        .ret ⟨4, 3⟩ (some (.name ⟨4, 10⟩ "total"))],
      .varDecl ⟨6, 1⟩ "round" .int (some (.int ⟨6, 13⟩ 1)),
      .whileLoop ⟨7, 1⟩ (.binary ⟨7, 8⟩ .less (.name ⟨7, 8⟩ "round") (.int ⟨7, 16⟩ 3))
        [.println ⟨8, 3⟩ (.call ⟨8, 11⟩ "add" [.name ⟨8, 15⟩ "round"]),
        .assign ⟨9, 3⟩ "round"
          (.binary ⟨9, 11⟩ .add (.name ⟨9, 11⟩ "round") (.int ⟨9, 19⟩ 1))]]

theorem counting_wellFormed : counting.WellFormed where
  functionNames := by decide
  notEntry := by decide
  functions := by
    intro function member
    cases member with
    | head => exact ⟨by decide, by decide, by decide, by decide, by decide⟩
    | tail _ rest => cases rest
  distinct := by decide
  jumps := by decide
  assigns := by decide

theorem counting_safe : Source.Safe (fun _ => 0) counting
  | 0 => by cbv
  | 1 => by cbv
  | 2 => by cbv
  | 3 => by cbv
  | fuel + 4 => by cbv

theorem counting_preserves_output :
    Source.Prints (fun _ => 0) counting [⟨true, .int, 1⟩, ⟨true, .int, 3⟩] ∧
      ∃ program context, Program.ofTree .empty false counting = .ok (program, context) ∧
        ∀ env : Env, env.Provides program (fun _ => 0) →
          (∀ output, program.Prints env output ↔ Source.Prints (fun _ => 0) counting output) ∧
          (program.Terminates env ↔ Source.Terminates (fun _ => 0) counting) :=
  ⟨⟨4, by decide +kernel⟩,
    ofTree_preserves_output counting_wellFormed (ScopeTrace.empty_agrees counting) counting_safe
      false⟩

/-- A block declares a name, and behind the block `x` is printed. -/
def shadowing (inner : String) : Tree where
  statements :=
    [.varDecl ⟨1, 1⟩ "x" .int (some (.int ⟨1, 10⟩ 1)),
      .block ⟨2, 1⟩ [.varDecl ⟨3, 3⟩ inner .int (some (.int ⟨3, 12⟩ 2))],
      .println ⟨5, 1⟩ (.name ⟨5, 9⟩ "x")]

/-- The condition that names are declared once is needed: behind the block the name shows what was
declared in it, so that the renaming of that declaration changes what is printed. -/
theorem shadowing_shows_inner :
    ["x", "y"].map (fun inner => (Program.ofTree .empty false (shadowing inner)).toOption.map
      fun result => Event.printedOf
        (Config.run zeroEnv result.1 9 (result.1.start zeroEnv entryName)).trace) =
      [some [⟨true, .int, 2⟩], some [⟨true, .int, 1⟩]] := by
  decide +kernel

end Ir

end ArmBackend
