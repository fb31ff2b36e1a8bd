import ArmBackend.Ir.Pass

/-!
# Sweeps

A sweep runs all passes over each function in turn.  Sweeps are repeated until one
of them changes nothing, but not more than ten times.
-/

namespace ArmBackend.Ir

def maxSweeps : Nat := 10

/-- Functions after some passes, with the warnings so far and which passes changed something. -/
structure Swept (α : Type) where
  result : α
  warnings : WarningLog
  /-- for each pass, how often it changed a function -/
  changes : List Nat

def changeCount (changed : Bool) : Nat :=
  if changed then 1 else 0

def sweepFunction : List Pass → WarningLog → Function → Swept Function
  | [], warnings, function => ⟨function, warnings, []⟩
  | pass :: rest, warnings, function =>
    let (revised, changed) := pass.run function
    let others := sweepFunction rest (pass.log function warnings) revised
    { others with changes := changeCount changed :: others.changes }

def sweepFunctions (passes : List Pass) : WarningLog → List Function → Swept (List Function)
  | warnings, [] => ⟨[], warnings, passes.map fun _ => 0⟩
  | warnings, function :: rest =>
    let first := sweepFunction passes warnings function
    let others := sweepFunctions passes first.warnings rest
    ⟨first.result :: others.result, others.warnings,
      List.zipWith (· + ·) first.changes others.changes⟩

structure Optimized where
  functions : List Function
  warnings : WarningLog := []
  changes : List Nat
  sweeps : Nat := 0
  /-- the last sweep changed nothing -/
  converged : Bool := false

namespace Optimized

def sweep (passes : List Pass) (state : Optimized) : Optimized :=
  let swept := sweepFunctions passes state.warnings state.functions
  { functions := swept.result
    warnings := swept.warnings
    changes := List.zipWith (· + ·) state.changes swept.changes
    sweeps := state.sweeps + 1
    converged := swept.changes.all (· == 0) }

/-- Sweep until nothing changes, at most `budget` times. -/
def iterate (passes : List Pass) : (budget : Nat) → Optimized → Optimized
  | 0, state => state
  | budget + 1, state =>
    let next := state.sweep passes
    if next.converged then next else iterate passes budget next

end Optimized

structure SweepStats where
  sweeps : Nat := 0
  converged : Bool := false
  passChanges : List (String × Nat) := []
  before : Nat := 0
  after : Nat := 0
deriving DecidableEq

namespace SweepStats

/-- How often the first pass of the name changed a function. -/
def changesOf (stats : SweepStats) (name : String) : Nat :=
  (stats.passChanges.lookup name).getD 0

end SweepStats

structure OptimizedProgram where
  program : Program
  stats : SweepStats
  warnings : WarningLog

def Program.optimizeWith (passes : List Pass) (program : Program) : OptimizedProgram :=
  let start : Optimized :=
    { functions := program.functions, changes := passes.map fun _ => 0 }
  let final := start.iterate passes maxSweeps
  let optimized := { program with functions := final.functions }
  { program := optimized
    warnings := final.warnings
    stats :=
      { sweeps := final.sweeps
        converged := final.converged
        passChanges := (passes.map Pass.name).zip final.changes
        before := program.instrCount
        after := optimized.instrCount } }

def Program.optimize (program : Program) : OptimizedProgram :=
  program.optimizeWith Pass.standard

end ArmBackend.Ir
