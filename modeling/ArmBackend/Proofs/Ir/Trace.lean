import ArmBackend.Proofs.Ir.Semantics

/-!
# Traces of runs

A run only adds to its trace, and does not go on once it has come to an end.  Two runs
print the same, whether they end or not, if the same lists are printed by some step.
-/

namespace ArmBackend.Ir

open List

namespace Config

variable (env : Env) (program : Program)

theorem prefix_resume (waiting : Caller) (callers : List Caller) (value : Option Word)
    (globals : Globals) (trace : List Event) :
    trace <+: (resume env waiting callers value globals trace).trace := by
  unfold resume
  split
  · exact prefix_refl _
  · exact prefix_append _ _

theorem prefix_leave (callers : List Caller) (value : Option Word) (globals : Globals)
    (trace : List Event) : trace <+: (leave env callers value globals trace).trace := by
  cases callers with
  | nil => exact prefix_append _ _
  | cons waiting callers =>
    exact (prefix_append _ _).trans (prefix_resume env waiting callers value globals _)

theorem prefix_invoke (callee : String) (waiting : Caller) (callers : List Caller)
    (arguments : List (Nat × Word)) (globals : Globals) (trace : List Event) :
    trace <+: (invoke env program callee waiting callers arguments globals trace).trace := by
  unfold invoke
  split
  · exact prefix_refl _
  · exact prefix_resume env waiting callers _ _ trace

theorem prefix_perform (current : Activation) (rest : List Instr) (callers : List Caller)
    (globals : Globals) (trace : List Event) (effect : Effect) :
    trace <+: (perform env program current rest callers globals trace effect).trace := by
  cases effect with
  | next state events => exact prefix_append _ _
  | jump target =>
    rw [perform]
    split
    · exact prefix_refl _
    · exact prefix_refl _
  | call callee dest =>
    cases callee with
    | none => exact prefix_refl _
    | some callee =>
      exact (prefix_append _ _).trans (prefix_invoke env program callee _ callers _ _ _)
  | leave value => exact prefix_leave env callers value globals trace

/-- A step only adds to the trace. -/
theorem prefix_step (config : Config) : config.trace <+: (step env program config).trace := by
  cases config with
  | running current callers globals trace =>
    rw [step]
    split
    · exact prefix_leave env callers none globals trace
    · exact prefix_perform env program current _ callers globals trace _
  | halted value globals trace | stuck trace => exact prefix_refl _

theorem prefix_run (count : Nat) (config : Config) :
    config.trace <+: (run env program count config).trace := by
  induction count generalizing config with
  | zero => exact prefix_refl _
  | succ count ih => exact (prefix_step env program config).trans (ih _)

variable {fewer more : Nat} {config : Config}

/-- More steps show more. -/
theorem prefix_mono (le : fewer ≤ more) (config : Config) :
    (run env program fewer config).trace <+: (run env program more config).trace := by
  obtain ⟨rest, rfl⟩ := Nat.exists_eq_add_of_le le
  rw [run_add]
  exact prefix_run env program rest _

/-- More steps print more. -/
theorem printed_mono (le : fewer ≤ more) (config : Config) :
    Event.printedOf (run env program fewer config).trace <+:
      Event.printedOf (run env program more config).trace := by
  obtain ⟨added, same⟩ := prefix_mono env program le config
  rw [← same, Event.printedOf_append]
  exact prefix_append _ _

theorem run_of_not_isRunning (still : config.isRunning = false) (count : Nat) :
    run env program count config = config := by
  induction count with
  | zero => rfl
  | succ count ih =>
    rw [run]
    cases config with
    | running current callers globals trace => cases still
    | halted value globals trace | stuck trace => exact ih

/-- Where a run has ended, it has ended for good. -/
theorem run_eq_of_le
    (still : (run env program fewer config).isRunning = false) (le : fewer ≤ more) :
    run env program more config = run env program fewer config := by
  obtain ⟨rest, rfl⟩ := Nat.exists_eq_add_of_le le
  rw [run_add, run_of_not_isRunning env program still]

theorem not_isRunning_of_isHalted (halted : config.isHalted = true) :
    config.isRunning = false := by
  cases config with
  | running current callers globals trace => cases halted
  | _ => rfl

end Config

end ArmBackend.Ir
