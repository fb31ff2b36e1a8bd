import ArmBackend.Proofs.Ir.Matching
import Mathlib.Logic.Function.Iterate

/-!
# One activation by itself

A function is run alone, from any state.  What its calls do is left open: each call is
answered with any globals and any result, by what has been noted of the run so far.
-/

namespace ArmBackend.Ir

/-- What surrounds a function that runs by itself. -/
structure Environs (Note : Type) extends Setting where
  /-- what is noted of an instruction, in the state in front of it -/
  note : (owns : String → Bool) → State → Instr → List Note
  /-- the globals that a call leaves, and its result -/
  reply : List Note → Globals → Globals × Word

/-- Where a function stands that runs by itself, and what has been noted. -/
inductive Standing (Note : Type) where
  | running (rest : List Instr) (state : State) (notes : List Note)
  | left (value : Option Word) (globals : Globals) (notes : List Note)
  /-- a jump had nowhere to go, or a call no name -/
  | stuck (notes : List Note)

/-- How a function that ran by itself has ended. -/
inductive Ending where
  | left (value : Option Word) (globals : Globals)
  | stuck

/-- What has been noted, and how the function has ended. -/
def Standing.view {Note : Type} : Standing Note → List Note × Option Ending
  | running _ _ notes => (notes, none)
  | left value globals notes => (notes, some (.left value globals))
  | stuck notes => (notes, some .stuck)

/-- The state behind a call with the answer that came back. -/
def State.answered (setting : Setting) (owns : String → Bool) (state : State)
    (dest : Option Operand) (answer : Globals × Word) : State :=
  match dest with
  | some dest => dest.assign setting owns (state.back answer.1) answer.2
  | none => state.back answer.1

namespace Function

variable {Note : Type}

/-- Carry out an effect. -/
def perform (around : Environs Note) (function : Function) (rest : List Instr) (state : State)
    (notes : List Note) : Effect → Standing Note
  | .next state _ => .running rest state notes
  | .jump label =>
    match function.target? label with
    | some target => .running target state notes
    | none => .stuck notes
  | .call none _ => .stuck notes
  | .call (some _) dest =>
    .running rest (state.answered around.toSetting function.owns dest
      (around.reply notes state.globals)) notes
  | .leave value => .left value state.globals notes

/-- One step; code that has come to its end leaves the function. -/
def stepAlone (around : Environs Note) (function : Function) : Standing Note → Standing Note
  | .running [] state notes => .left none state.globals notes
  | .running (instr :: rest) state notes =>
    function.perform around rest state (notes ++ around.note function.owns state instr)
      (instr.effect around.toSetting function.owns state)
  | stage => stage

/-- Where the function stands after a number of steps from its start. -/
def runAlone (around : Environs Note) (function : Function) (state : State) (count : Nat) :
    Standing Note :=
  (function.stepAlone around)^[count] (.running function.code state [])

/-- Whatever a run of the first function comes to, a run of the second comes to. -/
def Covers (around : Environs Note) (function other : Function) (state : State) : Prop :=
  ∀ count, ∃ count',
    (other.runAlone around state count').view = (function.runAlone around state count).view

variable {around : Environs Note} {state : State}

theorem Covers.trans {first second third : Function} (one : first.Covers around second state)
    (two : second.Covers around third state) : first.Covers around third state := by
  intro count
  obtain ⟨count', same⟩ := one count
  obtain ⟨count'', same'⟩ := two count'
  exact ⟨count'', same'.trans same⟩

/-- The function comes from the first stage to the second, and looks the same all the way. -/
def Lingers (around : Environs Note) (function : Function) (first second : Standing Note) : Prop :=
  ∃ steps, (function.stepAlone around)^[steps] first = second ∧
    ∀ count ≤ steps, ((function.stepAlone around)^[count] first).view = first.view

theorem Lingers.refl (around : Environs Note) (function : Function) (stage : Standing Note) :
    function.Lingers around stage stage := by
  refine ⟨0, rfl, fun count bound => ?_⟩
  rw [Nat.le_zero.mp bound]
  rfl

theorem Lingers.step {function : Function} {first next later : Standing Note}
    (moves : function.stepAlone around first = next) (more : function.Lingers around next later)
    (same : next.view = first.view) : function.Lingers around first later := by
  obtain ⟨steps, arrives, looks⟩ := more
  refine ⟨steps + 1, by rw [Function.iterate_succ_apply, moves, arrives], fun count bound => ?_⟩
  cases count with
  | zero => rfl
  | succ count =>
    rw [Function.iterate_succ_apply, moves, ← same]
    exact looks count (by omega)

/-- Related stages look the same, and both functions linger before they go on to related stages. -/
theorem covers_of_rounds {function other : Function} (rel : Standing Note → Standing Note → Prop)
    (same : ∀ {first second}, rel first second → second.view = first.view)
    (round : ∀ {first second}, rel first second → ∃ third fourth,
      function.Lingers around first third ∧ other.Lingers around second fourth ∧
        rel (function.stepAlone around third) (other.stepAlone around fourth))
    (start : rel (.running function.code state []) (.running other.code state [])) :
    function.Covers around other state := by
  intro count
  unfold runAlone
  generalize Standing.running function.code state [] = first at start
  generalize Standing.running other.code state [] = second at start
  induction count using Nat.strongRecOn generalizing first second with
  | ind count ih =>
    obtain ⟨_, _, ⟨steps, rfl, still⟩, ⟨others, rfl, -⟩, next⟩ := round start
    rw [← Function.iterate_succ_apply' (function.stepAlone around),
      ← Function.iterate_succ_apply' (other.stepAlone around)] at next
    by_cases within : count ≤ steps
    · exact ⟨0, (same start).trans (still count within).symm⟩
    · obtain ⟨count', meets⟩ := ih (count - (steps + 1)) (by omega) _ _ next
      refine ⟨count' + others.succ, ?_⟩
      have all : count = count - (steps + 1) + steps.succ := by omega
      rw [all, Function.iterate_add_apply, Function.iterate_add_apply]
      exact meets

end Function

end ArmBackend.Ir
