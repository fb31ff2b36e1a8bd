import ArmBackend.Proofs.Ir.Trace
import Mathlib.Data.List.Forall2

/-!
# Functions that match

A function is replaced by another one.  The two match if they can be run side by side:
from matching points each of them takes some steps that nobody sees, and then both take
one step that looks the same.  Programs whose functions match in pairs behave alike.
-/

namespace ArmBackend.Ir

open List

/-- What holds of each on the left makes something hold of each on the right. -/
theorem forall_mem_of_forall₂ {α β : Type} {rel : α → β → Prop} {first : List α} {second : List β}
    (all : Forall₂ rel first second) {left : α → Prop} {right : β → Prop}
    (each : ∀ {one other}, rel one other → left one → right other)
    (holds : ∀ one ∈ first, left one) : ∀ other ∈ second, right other := by
  induction all with
  | nil => exact forall_mem_nil _
  | cons related _ ih =>
    obtain ⟨here, later⟩ := forall_mem_cons.mp holds
    exact forall_mem_cons.mpr ⟨each related here, ih later⟩

/-- Where an activation stands: the code ahead of it and all that it reads and writes. -/
structure Point where
  rest : List Instr
  state : State

/-- What the next step of an activation is. -/
inductive Move where
  /-- goes on in the same function -/
  | go (events : List Event) (point : Point)
  | call (callee : String) (dest : Option Operand) (rest : List Instr)
  | leave (value : Option Word)
  | stuck

/-- The next step of a function. -/
def Function.move (setting : Setting) (function : Function) (point : Point) : Move :=
  match point.rest with
  | [] => .leave none
  | instr :: rest =>
    match instr.effect setting function.owns point.state with
    | .next state events => .go events ⟨rest, state⟩
    | .jump label =>
      match function.target? label with
      | some target => .go [] ⟨target, point.state⟩
      | none => .stuck
    | .call none _ => .stuck
    | .call (some callee) dest => .call callee dest rest
    | .leave value => .leave value

namespace State

/-- The state behind a call that left these globals. -/
def back (state : State) (globals : Globals) : State :=
  ⟨{ state.locals with pending := [] }, globals⟩

/-- The state once the result of a call is where it belongs. -/
def returned (state : State) (dest : Option Operand) (value : Word) : State :=
  match dest.bind Operand.location? with
  | some place => state.set place value
  | none => state

/-- A call leaves the places of the caller alone. -/
theorem get_back (state : State) (globals : Globals) {place : Location}
    (own : place.isGlobal = false) : (state.back globals).get place = state.get place := by
  cases place with
  | global name => cases own
  | _ => rfl

theorem get_returned (state : State) (dest : Option Operand) (value : Word) (place : Location) :
    (state.returned dest value).get place =
      if dest.bind Operand.location? = some place then value else state.get place := by
  unfold returned
  split
  · next spot named => rw [named, get_set]; simp only [Option.some.injEq, eq_comm]
  · next named => rw [named]; rfl

end State

namespace Config

/-- The configuration with an activation at a point. -/
def atPoint (function : Function) (callers : List Caller) (trace : List Event) (point : Point) :
    Config :=
  .running ⟨function, point.rest, point.state.locals⟩ callers point.state.globals trace

/-- Carry out the next step of an activation. -/
def follow (env : Env) (program : Program) (function : Function) (callers : List Caller)
    (trace : List Event) (state : State) : Move → Config
  | .go events point => atPoint function callers (trace ++ events) point
  | .call callee dest rest =>
    invoke env program callee ⟨⟨function, rest, { state.locals with pending := [] }⟩, dest⟩ callers
      state.locals.pending state.globals (trace ++ [.call callee state.locals.pending])
  | .leave value => leave env callers value state.globals trace
  | .stuck => .stuck trace

theorem step_at (env : Env) (program : Program) (function : Function) (callers : List Caller)
    (trace : List Event) (point : Point) :
    step env program (atPoint function callers trace point) =
      follow env program function callers trace point.state
        (function.move env.toSetting point) := by
  obtain ⟨rest, state⟩ := point
  cases rest with
  | nil => rfl
  | cons instr rest =>
    simp only [Config.atPoint, step, Function.move]
    cases instr.effect env.toSetting function.owns state with
    | next after events => rfl
    | jump label =>
      simp only [perform]
      cases function.target? label with
      | none => rfl
      | some target => simp only [follow, Config.atPoint, append_nil]
    | call callee dest =>
      cases callee with
      | none => rfl
      | some callee => rfl
    | leave value => rfl

theorem resume_at (env : Env) (function : Function) (rest : List Instr) (locals : Locals)
    {dest : Option Operand} (plain : ∀ operand ∈ dest, operand.isTemp = true)
    (callers : List Caller) (value : Option Word) (globals : Globals) (trace : List Event) :
    resume env ⟨⟨function, rest, locals⟩, dest⟩ callers value globals trace =
      atPoint function callers trace
        ⟨rest, (State.mk locals globals).returned dest (value.getD (env.stray trace))⟩ := by
  cases dest with
  | none => rfl
  | some operand =>
    have temp := plain operand rfl
    cases operand with
    | temp name type =>
      simp [resume, Operand.assign, Operand.stored, State.returned, Config.atPoint,
        Operand.location?]
    | _ => cases temp

end Config

section

variable (setting : Setting) (function : Function)

/-- Steps that nobody sees lead from the first point to the second. -/
inductive Silent : Point → Point → Prop where
  | refl (point : Point) : Silent point point
  | step {first second third : Point} (move : function.move setting first = .go [] second)
      (more : Silent second third) : Silent first third

end

/-- The next steps of two functions look the same, and the relation holds behind them. -/
def Meets (setting : Setting) (function other : Function) (rel : Point → Point → Prop)
    (first second : Point) : Prop :=
  match function.move setting first, other.move setting second with
  | .go events point, .go events' point' => events' = events ∧ rel point point'
  | .call callee dest rest, .call callee' dest' rest' =>
    (callee' = callee ∧ dest' = dest ∧ ∀ operand ∈ dest, operand.isTemp = true) ∧
      second.state.locals.pending = first.state.locals.pending ∧
      second.state.globals = first.state.globals ∧
      ∀ globals value, rel ⟨rest, (first.state.back globals).returned dest value⟩
        ⟨rest', (second.state.back globals).returned dest value⟩
  | .leave value, .leave value' => value' = value ∧ second.state.globals = first.state.globals
  | .stuck, .stuck => True
  | _, _ => False

/-- The other function can be run in place of the first, along points of the relation. -/
structure Matches (setting : Setting) (function other : Function) (rel : Point → Point → Prop) :
    Prop where
  parameters : other.parameters = function.parameters
  enter : ∀ state, rel ⟨function.code, state⟩ ⟨other.code, state⟩
  advance : ∀ {first second}, rel first second → ∃ third fourth,
    Silent setting function first third ∧ Silent setting other second fourth ∧
      Meets setting function other rel third fourth

variable {env : Env} {rel : Point → Point → Prop} {program : Program} {setting : Setting}

namespace Silent

variable {setting : Setting} {function : Function} {first second : Point}

/-- Silent steps are steps of the run. -/
theorem run (program : Program) (callers : List Caller) (trace : List Event)
    (silent : Silent env.toSetting function first second) :
    ∃ count, Config.run env program count (Config.atPoint function callers trace first) =
      Config.atPoint function callers trace second := by
  induction silent with
  | refl point => exact ⟨0, rfl⟩
  | step move more ih =>
    obtain ⟨count, arrives⟩ := ih
    refine ⟨count + 1, ?_⟩
    rw [Config.run, Config.step_at, move, Config.follow, append_nil]
    exact arrives

end Silent

/--
It is enough that, next to a point that does not meet its partner, a silent step leads
closer to the end of the code.
-/
theorem Matches.of_drops {function other : Function}
    (parameters : other.parameters = function.parameters)
    (enter : ∀ state, rel ⟨function.code, state⟩ ⟨other.code, state⟩)
    (advance : ∀ {first second}, rel first second → Meets setting function other rel first second ∨
      ∃ next, function.move setting first = .go [] next ∧ rel next second ∧
        next.rest.length < first.rest.length) : Matches setting function other rel := by
  refine ⟨parameters, enter, ?_⟩
  intro first second related
  induction size : first.rest.length using Nat.strongRecOn generalizing first with
  | ind length ih =>
    rcases advance related with meets | ⟨next, move, still, shorter⟩
    · exact ⟨first, second, .refl first, .refl second, meets⟩
    · obtain ⟨third, fourth, one, two, meets⟩ := ih _ (size ▸ shorter) still rfl
      exact ⟨third, fourth, .step move one, two, meets⟩

/-- The two functions have the same frames. -/
theorem Matches.enter_eq {function other : Function}
    (alike : Matches setting function other rel) (env : Env) (trace : List Event)
    (arguments : List (Nat × Word)) :
    other.enter env trace arguments =
      ⟨other, other.code, function.frame env trace arguments⟩ := by
  simp [Function.enter, Function.frame, Function.position?, alike.parameters]

/-- Every function of the first program has its replacement in the second, and no others. -/
def Program.Replaces (setting : Setting) (program other : Program) : Prop :=
  ∀ name, match program.function? name, other.function? name with
    | some function, some function' => ∃ rel, Matches setting function function' rel
    | none, none => True
    | _, _ => False

theorem Program.Replaces.pair {other : Program}
    (replaces : program.Replaces setting other) (name : String) :
    (program.function? name = none ∧ other.function? name = none) ∨
      ∃ function function' rel, program.function? name = some function ∧
        other.function? name = some function' ∧
        Matches setting function function' rel := by
  have pair := replaces name
  split at pair
  · next one two =>
      obtain ⟨rel, alike⟩ := pair
      exact .inr ⟨_, _, rel, one, two, alike⟩
  · next one two => exact .inl ⟨one, two⟩
  · exact pair.elim

theorem Program.replaces_of_forall₂ {other : Program}
    (all : Forall₂ (fun function function' => function'.name = function.name ∧
      ∃ rel, Matches setting function function' rel) program.functions other.functions) :
    program.Replaces setting other := by
  intro name
  rw [function?, function?]
  generalize program.functions = functions at all
  generalize other.functions = others at all
  induction all with
  | nil => trivial
  | @cons function _ _ _ pair _ ih =>
    obtain ⟨same, matching⟩ := pair
    rw [find?_cons, find?_cons, same]
    cases function.name == name with
    | true => exact matching
    | false => exact ih

/-- Two activations that wait for a call match once it has come back. -/
structure Caller.Matched (setting : Setting) (waiting other : Caller) : Prop where
  dest : other.dest = waiting.dest
  plain : ∀ operand ∈ waiting.dest, operand.isTemp = true
  behind : ∃ rel,
    Matches setting waiting.activation.function other.activation.function rel ∧
    ∀ globals value,
      rel ⟨waiting.activation.rest,
          (State.mk waiting.activation.locals globals).returned waiting.dest value⟩
        ⟨other.activation.rest,
          (State.mk other.activation.locals globals).returned waiting.dest value⟩

namespace Config

/-- Runs of two programs that stand at matching points. -/
inductive Matched (setting : Setting) : Config → Config → Prop where
  | running {function other : Function} {rel : Point → Point → Prop} {first second : Point}
      {callers others : List Caller} (trace : List Event)
      (alike : Matches setting function other rel) (here : rel first second)
      (waiting : Forall₂ (Caller.Matched setting) callers others) :
      Matched setting (atPoint function callers trace first) (atPoint other others trace second)
  | halted (value : Option Word) (globals : Globals) (trace : List Event) :
      Matched setting (.halted value globals trace) (.halted value globals trace)
  | stuck (trace : List Event) : Matched setting (.stuck trace) (.stuck trace)

section

variable {env : Env} {program replaced : Program} {callers others : List Caller}
  {config other : Config}

theorem Matched.resume {waiting other : Caller}
    (both : waiting.Matched env.toSetting other)
    (more : Forall₂ (Caller.Matched env.toSetting) callers others)
    (value : Option Word) (globals : Globals) (trace : List Event) :
    Matched env.toSetting (resume env waiting callers value globals trace)
      (resume env other others value globals trace) := by
  obtain ⟨⟨function, rest, locals⟩, dest⟩ := waiting
  obtain ⟨⟨function', rest', locals'⟩, dest'⟩ := other
  obtain ⟨rfl, plain, rel, alike, behind⟩ := both
  rw [resume_at env function rest locals plain, resume_at env function' rest' locals' plain]
  exact .running trace alike (behind globals _) more

theorem Matched.leave (more : Forall₂ (Caller.Matched env.toSetting) callers others)
    (value : Option Word) (globals : Globals) (trace : List Event) :
    Matched env.toSetting (leave env callers value globals trace)
      (leave env others value globals trace) := by
  cases more with
  | nil => exact .halted value globals _
  | cons both more => exact .resume both more value globals _

section

variable (replaces : program.Replaces env.toSetting replaced)
include replaces

theorem Matched.invoke {waiting other : Caller} (both : waiting.Matched env.toSetting other)
    (more : Forall₂ (Caller.Matched env.toSetting) callers others) (callee : String)
    (arguments : List (Nat × Word)) (globals : Globals) (trace : List Event) :
    Matched env.toSetting (invoke env program callee waiting callers arguments globals trace)
      (invoke env replaced callee other others arguments globals trace) := by
  unfold Config.invoke
  rcases replaces.pair callee with ⟨one, two⟩ | ⟨function, function', rel, one, two, alike⟩
  · rw [one, two]
    exact .resume both more _ _ trace
  · rw [one, two]
    dsimp only
    rw [alike.enter_eq]
    exact .running trace alike (alike.enter ⟨function.frame env trace arguments, globals⟩)
      (.cons both more)

theorem Matched.follow {function other : Function}
    (alike : Matches env.toSetting function other rel) {first second : Point}
    (meets : Meets env.toSetting function other rel first second)
    (waiting : Forall₂ (Caller.Matched env.toSetting) callers others)
    (trace : List Event) :
    Matched env.toSetting (step env program (atPoint function callers trace first))
      (step env replaced (atPoint other others trace second)) := by
  rw [step_at, step_at]
  unfold Meets at meets
  split at meets
  · next one two =>
      obtain ⟨rfl, behind⟩ := meets
      rw [one, two]
      exact .running _ alike behind waiting
  · next one two =>
      obtain ⟨⟨rfl, rfl, plain⟩, pending, globals, behind⟩ := meets
      rw [one, two, Config.follow, Config.follow, pending, globals]
      refine Matched.invoke replaces ?_ waiting _ _ _ _
      exact ⟨rfl, plain, rel, alike, behind⟩
  · next one two =>
      obtain ⟨rfl, globals⟩ := meets
      rw [one, two, Config.follow, Config.follow, globals]
      exact .leave waiting _ _ _
  · next one two =>
      rw [one, two]
      exact .stuck trace
  · exact meets.elim

variable {config other : Config} (both : Matched env.toSetting config other)
include both

theorem Matched.advance :
    ∃ count count', Matched env.toSetting (run env program (count + 1) config)
      (run env replaced (count' + 1) other) := by
  cases both with
  | running trace alike here waiting =>
    obtain ⟨third, fourth, one, two, meets⟩ := alike.advance here
    obtain ⟨count, reaches⟩ := one.run program _ trace
    obtain ⟨count', reaches'⟩ := two.run replaced _ trace
    refine ⟨count, count', ?_⟩
    rw [run_add, run_add, reaches, reaches']
    exact .follow replaces alike meets waiting trace
  | halted value globals trace => exact ⟨0, 0, .halted value globals trace⟩
  | stuck trace => exact ⟨0, 0, .stuck trace⟩

theorem Matched.run (bound : Nat) :
    ∃ count count', bound ≤ count ∧ bound ≤ count' ∧
      Matched env.toSetting (run env program count config)
        (run env replaced count' other) := by
  induction bound with
  | zero => exact ⟨0, 0, Nat.le_refl 0, Nat.le_refl 0, both⟩
  | succ bound ih =>
    obtain ⟨count, count', le, le', there⟩ := ih
    obtain ⟨more, more', again⟩ := there.advance replaces
    rw [← run_add, ← run_add] at again
    exact ⟨count + (more + 1), count' + (more' + 1), by omega, by omega, again⟩

end

theorem Matched.trace (both : Matched setting config other) :
    other.trace = config.trace := by
  cases both <;> rfl

theorem Matched.halted_iff (both : Matched setting config other)
    (value : Option Word) (globals : Globals) (trace : List Event) :
    config = .halted value globals trace ↔ other = .halted value globals trace := by
  cases both with
  | running | stuck => exact ⟨nofun, nofun⟩
  | halted => rfl

end

end Config

namespace Program

section

variable (env : Env) (program : Program) (name : String)

/-- A run from the function shows these events, and maybe others behind them. -/
def Shows (trace : List Event) : Prop :=
  ∃ count, trace <+: (Config.run env program count (program.start env name)).trace

/-- A run from the function comes to an end with this result. -/
def Ends (value : Option Word) (globals : Globals) (trace : List Event) : Prop :=
  ∃ count, Config.run env program count (program.start env name) = .halted value globals trace

end

/-- What is seen of the two programs is the same, whichever function they start with. -/
structure Alike (env : Env) (program other : Program) : Prop where
  shows : ∀ name trace, program.Shows env name trace ↔ other.Shows env name trace
  ends : ∀ name value globals trace,
    program.Ends env name value globals trace ↔ other.Ends env name value globals trace

theorem Alike.refl (env : Env) (program : Program) : program.Alike env program :=
  ⟨fun _ _ => Iff.rfl, fun _ _ _ _ => Iff.rfl⟩

theorem Alike.trans {first second third : Program} (one : first.Alike env second)
    (two : second.Alike env third) :
    first.Alike env third where
  shows name trace := (one.shows name trace).trans (two.shows name trace)
  ends name value globals trace :=
    (one.ends name value globals trace).trans (two.ends name value globals trace)

section

variable {env : Env} {program replaced : Program}
  (replaces : program.Replaces env.toSetting replaced)
include replaces

theorem Replaces.start (name : String) :
    Config.Matched env.toSetting (program.start env name) (replaced.start env name) := by
  unfold Program.start
  rcases replaces.pair name with ⟨one, two⟩ | ⟨function, function', rel, one, two, alike⟩
  · rw [one, two]
    exact .stuck []
  · rw [one, two]
    dsimp only
    rw [alike.enter_eq]
    exact .running [] alike (alike.enter ⟨function.frame env [] [], .zero⟩) .nil

theorem Replaces.alike : program.Alike env replaced := by
  have joint (name : String) (bound : Nat) := (replaces.start name).run replaces bound
  constructor
  · intro name trace
    constructor
    · rintro ⟨bound, shown⟩
      obtain ⟨count, count', le, _, both⟩ := joint name bound
      exact ⟨count', both.trace ▸ shown.trans (Config.prefix_mono env program le _)⟩
    · rintro ⟨bound, shown⟩
      obtain ⟨count, count', _, le, both⟩ := joint name bound
      exact ⟨count, both.trace ▸ shown.trans (Config.prefix_mono env replaced le _)⟩
  · intro name value globals trace
    constructor
    · rintro ⟨bound, halted⟩
      obtain ⟨count, count', le, _, both⟩ := joint name bound
      refine ⟨count', (both.halted_iff value globals trace).mp ?_⟩
      rw [Config.run_eq_of_le env program (by rw [halted]; rfl) le, halted]
    · rintro ⟨bound, halted⟩
      obtain ⟨count, count', _, le, both⟩ := joint name bound
      refine ⟨count, (both.halted_iff value globals trace).mpr ?_⟩
      rw [Config.run_eq_of_le env replaced (by rw [halted]; rfl) le, halted]

end

end Program

end ArmBackend.Ir
