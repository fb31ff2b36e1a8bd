import ArmBackend.Proofs.Lowering.Names
import ArmBackend.Proofs.Source.Interpreter

/-!
# Code against the interpreter

What it means that a run of three-address code covers a computation of the source
language: where the computation is done, the code comes to a configuration that
fits its result, and where it runs out of time, the code has gone on for as many
steps and has printed the same.
-/

namespace ArmBackend.Ir

open Source (Value World Outcome Run)

/-- The surroundings of an activation while its own code runs. -/
structure Stage where
  env : Env
  program : Program
  function : Function
  callers : List Caller

variable {target : List Instr} {label : String}

namespace Stage

section

variable (stage : Stage)

def step (config : Config) : Config :=
  config.step stage.env stage.program

def run (count : Nat) (config : Config) : Config :=
  config.run stage.env stage.program count

/-- The activation stands in front of `rest`, and `output` has been printed so far. -/
def At (config : Config) (rest : List Instr) (state : State) (output : List Printed) : Prop :=
  ∃ trace, config = .running ⟨stage.function, rest, state.locals⟩ stage.callers state.globals
      trace ∧ Event.printedOf trace = output

def value (state : State) (operand : Operand) : Word :=
  operand.value stage.env.toSetting stage.function.owns state

def effect (state : State) (instr : Instr) : Effect :=
  instr.effect stage.env.toSetting stage.function.owns state

/-- The activation is about to do something other than to go on. -/
def Poised (config : Config) (effect : Effect) (state : State) (output : List Printed) : Prop :=
  ∃ instr rest, stage.At config (instr :: rest) state output ∧ stage.effect state instr = effect

end

variable {stage : Stage} {config : Config} {instr : Instr} {rest : List Instr} {state : State}
  {output : List Printed}

theorem run_add (stage : Stage) (first second : Nat) (config : Config) :
    stage.run (first + second) config = stage.run second (stage.run first config) :=
  Config.run_add stage.env stage.program first second config

theorem At.isRunning (here : stage.At config rest state output) : config.isRunning = true := by
  obtain ⟨trace, rfl, _⟩ := here
  rfl

theorem At.printed (here : stage.At config rest state output) :
    Event.printedOf config.trace = output := by
  obtain ⟨trace, rfl, printed⟩ := here
  exact printed

section

variable (here : stage.At config (instr :: rest) state output) {after : State} {events : List Event}
  (does : stage.effect state instr = .next after events)
include here does

/-- A step that goes on behind the instruction. -/
theorem At.next : stage.At (stage.step config) rest after (output ++ Event.printedOf events) := by
  obtain ⟨trace, rfl, rfl⟩ := here
  refine ⟨trace ++ events, ?_, Event.printedOf_append _ _⟩
  have same : instr.effect stage.env.toSetting stage.function.owns
      ⟨state.locals, state.globals⟩ = .next after events := does
  simp only [Stage.step, Config.step, same, Config.perform]

/-- A step that goes on and prints nothing. -/
theorem At.silent (quiet : Event.printedOf events = []) :
    stage.At (stage.step config) rest after output := by
  have there := here.next does
  rwa [quiet, List.append_nil] at there

end

/-- A step that jumps. -/
theorem At.jump (here : stage.At config (instr :: rest) state output)
    (does : stage.effect state instr = .jump (some label))
    (found : afterLabel label stage.function.code = some target) :
    stage.At (stage.step config) target state output := by
  obtain ⟨trace, rfl, rfl⟩ := here
  refine ⟨trace, ?_, rfl⟩
  have same : instr.effect stage.env.toSetting stage.function.owns
      ⟨state.locals, state.globals⟩ = .jump (some label) := does
  have goes : stage.function.target? (some label) = some target := found
  simp only [Stage.step, Config.step, same, Config.perform, goes]

theorem Poised.jump (poised : stage.Poised config (.jump (some label)) state output)
    (found : afterLabel label stage.function.code = some target) :
    stage.At (stage.step config) target state output := by
  obtain ⟨instr, rest, here, does⟩ := poised
  exact here.jump does found

end Stage

/-- A run of the code covers a computation of the source language. -/
def Stage.Covers {α : Type} (stage : Stage) (fuel : Nat) (config : Config) (outcome : Outcome α)
    (post : α → World → Config → Prop) : Prop :=
  match outcome with
  | .done value world => ∃ count, post value world (stage.run count config)
  | .fault _ => True
  | .timeout output => ∃ count, fuel ≤ count ∧ (stage.run count config).isRunning = true ∧
      Event.printedOf (stage.run count config).trace = output

namespace Stage.Covers

variable {α β : Type} {stage : Stage} {fuel : Nat} {config : Config} {outcome : Outcome α}
  {post : α → World → Config → Prop}

theorem of_run {count : Nat} (covers : stage.Covers fuel (stage.run count config) outcome post) :
    stage.Covers (fuel + count) config outcome post := by
  cases outcome with
  | done value world =>
    obtain ⟨more, fits⟩ := covers
    refine ⟨count + more, ?_⟩
    rwa [stage.run_add]
  | fault fault => exact True.intro
  | timeout output =>
    obtain ⟨more, enough, running, printed⟩ := covers
    refine ⟨count + more, by omega, ?_, ?_⟩
    · rw [stage.run_add]
      exact running
    · rw [stage.run_add]
      exact printed

theorem mono {more : Nat} (covers : stage.Covers more config outcome post) (le : fuel ≤ more) :
    stage.Covers fuel config outcome post := by
  cases outcome with
  | done value world => exact covers
  | fault fault => exact True.intro
  | timeout output =>
    obtain ⟨count, enough, rest⟩ := covers
    exact ⟨count, Nat.le_trans le enough, rest⟩

/-- One step more is one unit of time more. -/
theorem step_succ (covers : stage.Covers fuel (stage.step config) outcome post) :
    stage.Covers (fuel + 1) config outcome post := by
  have started : stage.Covers fuel (stage.run 1 config) outcome post := covers
  exact of_run started

theorem step (covers : stage.Covers fuel (stage.step config) outcome post) :
    stage.Covers fuel config outcome post :=
  covers.step_succ.mono (Nat.le_succ fuel)

theorem imp {weaker : α → World → Config → Prop} (covers : stage.Covers fuel config outcome post)
    (implies : ∀ value world after, post value world after → weaker value world after) :
    stage.Covers fuel config outcome weaker := by
  cases outcome with
  | done value world =>
    obtain ⟨count, fits⟩ := covers
    exact ⟨count, implies _ _ _ fits⟩
  | fault fault => exact True.intro
  | timeout output => exact covers

theorem known (covers : stage.Covers fuel config outcome post) :
    stage.Covers fuel config outcome fun value world after =>
      outcome = .done value world ∧ post value world after := by
  cases outcome with
  | done value world =>
    obtain ⟨count, fits⟩ := covers
    exact ⟨count, rfl, fits⟩
  | fault fault => exact True.intro
  | timeout output => exact covers

/-- One computation after another. -/
theorem bind {first : Run α} {next : α → Run β} {world : World}
    {goal : β → World → Config → Prop}
    (covers : stage.Covers fuel config (first world) post)
    (goesOn : ∀ value between after, post value between after →
      stage.Covers fuel after (next value between) goal) :
    stage.Covers fuel config ((first >>= next) world) goal := by
  change stage.Covers fuel config (Run.bind first next world) goal
  unfold Run.bind
  cases found : first world with
  | done value between =>
    rw [found] at covers
    obtain ⟨count, fits⟩ := covers
    exact (of_run (goesOn value between _ fits)).mono (Nat.le_add_right _ _)
  | fault fault => exact True.intro
  | timeout output =>
    rw [found] at covers
    exact covers

end Stage.Covers

end ArmBackend.Ir
