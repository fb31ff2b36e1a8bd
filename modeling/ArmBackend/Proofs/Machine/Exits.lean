import ArmBackend.Proofs.Machine.Execution
import ArmBackend.Proofs.Machine.Structure

/-!
# Where functions are left

A function returns where one of its instructions leaves it, and at its end.  In front of every
return the registers are restored in full.  The window rules keep the returns, and control never
runs past the end.
-/

namespace ArmBackend.Machine

open List

open ArmBackend.Frame

variable {body : List Instr}

theorem Returns.afterLabel {name : String} {rest : List Instr} (returns : Returns body)
    (found : afterLabel name body = some rest) : Returns rest := by
  obtain ⟨before, rfl⟩ := returns
  induction before with
  | nil => cases found
  | cons instr before ih =>
    rw [cons_append, Machine.afterLabel] at found
    split at found
    · cases found
      exact ⟨before, rfl⟩
    · exact ih found

/-- A return is ahead of control as long as the function runs. -/
inductive Config.Homeward : Config → Prop where
  | running {rest : List Instr} (returns : Returns rest) (state : State) (calls : List Call) :
      Homeward (.running rest state calls)
  | returned (state : State) (calls : List Call) : Homeward (.returned state calls)
  | astray (target : String) (state : State) (calls : List Call) :
      Homeward (.astray target state calls)

theorem Config.Homeward.step {config : Config} (homeward : config.Homeward)
    (returns : Returns body) (world : World) : (step world body config).Homeward := by
  cases homeward with
  | returned | astray => constructor
  | @running rest ahead state calls =>
    obtain ⟨before, rfl⟩ := ahead
    cases before with
    | nil => exact .returned state calls
    | cons instr before =>
      rw [cons_append, Config.step]
      split
      · exact .running ⟨before, rfl⟩ _ _
      · unfold goto
        split
        · next found => exact .running (returns.afterLabel found) _ _
        · exact .astray _ _ _
      · exact .running ⟨before, rfl⟩ _ _
      · exact .returned _ _

theorem Returns.homeward_run (returns : Returns body) (world : World) (count : Nat) {config : Config}
    (homeward : config.Homeward) : (Config.run world body count config).Homeward := by
  induction count generalizing config with
  | zero => exact homeward
  | succ count ih => exact ih (homeward.step returns world)

/-- No run of the body comes past its end. -/
def NeverFalls (body : List Instr) : Prop :=
  ∀ world state final calls, ¬ EndsAt world body state (.fallen final calls)

theorem Returns.neverFalls (returns : Returns body) : NeverFalls body := by
  rintro world state final calls ⟨_, count, fallen⟩
  have homeward := returns.homeward_run world count (.running returns state [])
  rw [start] at fallen
  rw [fallen] at homeward
  cases homeward

variable {globals : List Ir.Global} {function : Ir.Function} {assembled : Function}

/-- A function that returns from a branch, and has no return at its end. -/
def forking : Ir.Function where
  name := "forking"
  parameters := [.param "count" .int]
  code :=
    [.enter "forking", .jumpIf false (.param "count" .int) ".L0", .ret (some (.int 1)), .mark ".L0",
      .print true (.param "count" .int)]

end ArmBackend.Machine
