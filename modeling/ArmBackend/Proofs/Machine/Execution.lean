import ArmBackend.Proofs.Machine.State

/-!
# Running the code of a function

Control is the code that is still ahead of it.  A branch goes behind the first label of
its name.  A call is an event of the run: whoever is called sees the state and leaves
another one.  Two bodies behave alike if they make the same calls in the same states and
come to the same end, or both to none.
-/

namespace ArmBackend.Machine

open List

/-- A call, with the state in which it was made. -/
structure Call where
  symbol : String
  state : State

/-- What the run of a function depends on: the platform, and what comes back from calls. -/
structure World extends Platform where
  /-- the state behind a call, which may depend on the calls before it -/
  callee : List Call → String → State → State

/-- Where the run of a function stands, with the calls so far. -/
inductive Config where
  | running (rest : List Instr) (state : State) (calls : List Call)
  | returned (state : State) (calls : List Call)
  /-- control ran past the end of the code -/
  | fallen (state : State) (calls : List Call)
  /-- a branch went to a label that the function does not have -/
  | astray (target : String) (state : State) (calls : List Call)

/-- The code behind the first label of the name. -/
def afterLabel (name : String) : List Instr → Option (List Instr)
  | [] => none
  | instr :: rest => if instr = .label name then some rest else afterLabel name rest

variable {config : Config} {rel : List Instr → List Instr → Prop} {state : State} {world : World}

namespace Config

def calls : Config → List Call
  | running _ _ calls => calls
  | returned _ calls => calls
  | fallen _ calls => calls
  | astray _ _ calls => calls

def isRunning : Config → Bool
  | running _ _ _ => true
  | _ => false

/-- Send control to a label. -/
def goto (body : List Instr) (target : String) (state : State) (calls : List Call) : Config :=
  match afterLabel target body with
  | some rest => running rest state calls
  | none => astray target state calls

def step (world : World) (body : List Instr) : Config → Config
  | running [] state calls => fallen state calls
  | running (instr :: rest) state calls =>
    match instr.control state with
    | .next => running rest (instr.exec world.toPlatform state) calls
    | .jump target => goto body target state calls
    | .call symbol =>
      running rest (world.callee calls symbol state) (calls ++ [⟨symbol, state⟩])
    | .ret => returned state calls
  | config => config

/-- A number of steps. -/
def run (world : World) (body : List Instr) : Nat → Config → Config
  | 0, config => config
  | count + 1, config => run world body count (step world body config)

section

variable (world : World) (body : List Instr)

theorem run_add (first second : Nat) (config : Config) :
    run world body (first + second) config =
      run world body second (run world body first config) := by
  induction first generalizing config with
  | zero => rw [Nat.zero_add, run]
  | succ first ih => rw [Nat.succ_add, run, ih, run]

/-- A run that has come to an end stays there. -/
theorem run_of_not_isRunning (still : config.isRunning = false) (count : Nat) :
    run world body count config = config := by
  induction count with
  | zero => rfl
  | succ count ih =>
    cases config with
    | running rest state calls => cases still
    | _ => exact ih

theorem run_eq_of_le {fewer more : Nat} (still : (run world body fewer config).isRunning = false)
    (le : fewer ≤ more) : run world body more config = run world body fewer config := by
  obtain ⟨rest, rfl⟩ := Nat.exists_eq_add_of_le le
  rw [run_add, run_of_not_isRunning world body still]

/-- A step only adds to the calls. -/
theorem calls_prefix_step (config : Config) :
    config.calls <+: (step world body config).calls := by
  cases config with
  | running rest state calls =>
    cases rest with
    | nil => exact prefix_refl _
    | cons instr rest =>
      rw [step]
      split
      · exact prefix_refl _
      · unfold goto
        split <;> exact prefix_refl _
      · exact prefix_append _ _
      · exact prefix_refl _
  | _ => exact prefix_refl _

theorem calls_prefix_run (count : Nat) (config : Config) :
    config.calls <+: (run world body count config).calls := by
  induction count generalizing config with
  | zero => exact prefix_refl _
  | succ count ih => exact (calls_prefix_step world body config).trans (ih _)

theorem calls_prefix_mono {fewer more : Nat} (le : fewer ≤ more) (config : Config) :
    (run world body fewer config).calls <+: (run world body more config).calls := by
  obtain ⟨rest, rfl⟩ := Nat.exists_eq_add_of_le le
  rw [run_add]
  exact calls_prefix_run world body rest _

/-- Control runs through straight code. -/
theorem run_straight {code : List Instr} (straight : ∀ instr ∈ code, instr.isStraight = true)
    (rest : List Instr) (state : State) (calls : List Call) :
    run world body code.length (running (code ++ rest) state calls) =
      running rest (execAll world.toPlatform code state) calls := by
  induction code generalizing state with
  | nil => rfl
  | cons instr code ih =>
    have here := Instr.control_of_isStraight (straight instr (mem_cons_self ..)) state
    rw [length_cons, run, cons_append, step, here]
    exact ih (fun other member => straight other (mem_cons_of_mem _ member)) _

end

end Config

/-- Where the run of a body begins. -/
def start (body : List Instr) (state : State) : Config :=
  .running body state []

section

variable (world : World) (body other : List Instr) (state : State)

/-- The run makes these calls, and maybe others behind them. -/
def Calls (calls : List Call) : Prop :=
  ∃ count, calls <+: (Config.run world body count (start body state)).calls

/-- The run comes to this end. -/
def EndsAt (final : Config) : Prop :=
  final.isRunning = false ∧ ∃ count, Config.run world body count (start body state) = final

/-- The run never ends. -/
def Diverges : Prop :=
  ∀ count, (Config.run world body count (start body state)).isRunning = true

/-- The same calls, and the same end or none. -/
structure SameRun : Prop where
  calls : ∀ calls, Calls world body state calls ↔ Calls world other state calls
  ends : ∀ final, EndsAt world body state final ↔ EndsAt world other state final
  diverges : Diverges world body state ↔ Diverges world other state

end

theorem SameRun.trans {first second third : List Instr} (one : SameRun world first second state)
    (two : SameRun world second third state) :
    SameRun world first third state where
  calls calls := (one.calls calls).trans (two.calls calls)
  ends final := (one.ends final).trans (two.ends final)
  diverges := one.diverges.trans two.diverges

theorem diverges_iff (world : World) (body : List Instr) (state : State) :
    Diverges world body state ↔ ∀ final, ¬ EndsAt world body state final := by
  constructor
  · rintro forever final ⟨still, count, rfl⟩
    rw [forever count] at still
    cases still
  · intro endless count
    cases running : (Config.run world body count (start body state)).isRunning with
    | true => rfl
    | false => exact absurd ⟨running, count, rfl⟩ (endless _)

/-- A run comes to one end only. -/
theorem EndsAt.unique {body : List Instr} {one two : Config} (first : EndsAt world body state one)
    (second : EndsAt world body state two) : one = two := by
  obtain ⟨still, count, rfl⟩ := first
  obtain ⟨still', count', rfl⟩ := second
  rcases Nat.le_total count count' with le | le
  · exact (Config.run_eq_of_le world body still le).symm
  · exact Config.run_eq_of_le world body still' le

/-- The two runs stand at related code in the same state, or have come to the same end. -/
inductive Config.Abreast (rel : List Instr → List Instr → Prop) : Config → Config → Prop where
  | running {rest rest' : List Instr} (here : rel rest rest') (state : State)
      (calls : List Call) : Abreast rel (.running rest state calls) (.running rest' state calls)
  | ended {config : Config} (still : config.isRunning = false) : Abreast rel config config

theorem Config.Abreast.calls_eq {other : Config} (abreast : Config.Abreast rel config other) :
    other.calls = config.calls := by
  cases abreast <;> rfl

theorem Config.Abreast.eq_of_ended {other : Config} (abreast : Config.Abreast rel config other)
    (still : config.isRunning = false ∨ other.isRunning = false) : other = config := by
  cases abreast with
  | running here state calls => rcases still with running | running <;> cases running
  | ended _ => rfl

section

variable {world : World} {body other : List Instr} {rel : List Instr → List Instr → Prop}

theorem abreast_beyond
    (advance : ∀ rest rest' state calls, rel rest rest' → ∃ count count',
      Config.Abreast rel (Config.run world body (count + 1) (.running rest state calls))
        (Config.run world other (count' + 1) (.running rest' state calls)))
    {first second : Config} (abreast : Config.Abreast rel first second) (bound : Nat) :
    ∃ count count', bound ≤ count ∧ bound ≤ count' ∧
      Config.Abreast rel (Config.run world body count first)
        (Config.run world other count' second) := by
  induction bound with
  | zero => exact ⟨0, 0, Nat.le_refl 0, Nat.le_refl 0, abreast⟩
  | succ bound ih =>
    obtain ⟨count, count', le, le', there⟩ := ih
    generalize one : Config.run world body count first = reached at there
    generalize two : Config.run world other count' second = reached' at there
    cases there with
    | running here state calls =>
      obtain ⟨more, more', again⟩ := advance _ _ state calls here
      refine ⟨count + (more + 1), count' + (more' + 1), by omega, by omega, ?_⟩
      rw [Config.run_add world body count, Config.run_add world other count', one, two]
      exact again
    | ended still =>
      refine ⟨count + 1, count' + 1, by omega, by omega, ?_⟩
      rw [Config.run_add, Config.run_add, one, two, Config.run_of_not_isRunning _ _ still,
        Config.run_of_not_isRunning _ _ still]
      exact .ended still

/-- Bodies that can be run abreast behave alike. -/
theorem SameRun.of_abreast (begins : rel body other)
    (advance : ∀ rest rest' state calls, rel rest rest' → ∃ count count',
      Config.Abreast rel (Config.run world body (count + 1) (.running rest state calls))
        (Config.run world other (count' + 1) (.running rest' state calls)))
    (state : State) : SameRun world body other state := by
  have beyond (bound : Nat) : ∃ count count', bound ≤ count ∧ bound ≤ count' ∧
      Config.Abreast rel (Config.run world body count (start body state))
        (Config.run world other count' (start other state)) :=
    abreast_beyond advance (.running begins state []) bound
  have ends : ∀ final, EndsAt world body state final ↔ EndsAt world other state final := by
    intro final
    constructor
    · rintro ⟨still, bound, rfl⟩
      obtain ⟨count, count', le, _, both⟩ := beyond bound
      rw [Config.run_eq_of_le world body still le] at both
      exact ⟨still, count', both.eq_of_ended (.inl still)⟩
    · rintro ⟨still, bound, rfl⟩
      obtain ⟨count, count', _, le, both⟩ := beyond bound
      rw [Config.run_eq_of_le world other still le] at both
      exact ⟨still, count, (both.eq_of_ended (.inr still)).symm⟩
  refine ⟨?_, ends, ?_⟩
  · intro calls
    constructor
    · rintro ⟨bound, made⟩
      obtain ⟨count, count', le, _, both⟩ := beyond bound
      exact ⟨count', both.calls_eq ▸ made.trans (Config.calls_prefix_mono world body le _)⟩
    · rintro ⟨bound, made⟩
      obtain ⟨count, count', _, le, both⟩ := beyond bound
      exact ⟨count, both.calls_eq ▸ made.trans (Config.calls_prefix_mono world other le _)⟩
  · rw [diverges_iff, diverges_iff]
    exact forall_congr' fun final => not_congr (ends final)

end

end ArmBackend.Machine
