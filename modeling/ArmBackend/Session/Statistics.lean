import ArmBackend.Json.Basic

/-!
# Statistics

What a compilation counts on its way.  A compilation that fails keeps what its
finished phases counted.
-/

namespace ArmBackend

structure PhaseTime where
  phase : String
  micros : Nat := 0
deriving DecidableEq

structure Statistics where
  phases : List PhaseTime := []
  functions : Nat := 0
  strings : Nat := 0
  temps : Nat := 0
  labels : Nat := 0
  irGenerated : Nat := 0
  irOptimized : Nat := 0
  sweeps : Nat := 0
  converged : Bool := false
  passChanges : List (String × Nat) := []
  asmGenerated : Nat := 0
  asmOptimized : Nat := 0
  ruleHits : List (String × Nat) := []
deriving DecidableEq

namespace Statistics

def record (phase : String) (stats : Statistics) : Statistics :=
  { stats with phases := stats.phases ++ [{ phase }] }

/-- The time of the first run of a phase. -/
def micros? (stats : Statistics) (phase : String) : Option Nat :=
  (stats.phases.find? fun time => time.phase == phase).map PhaseTime.micros

def totalMicros (stats : Statistics) : Nat :=
  stats.phases.foldr (fun time total => time.micros + total) 0

/-- Set the time of the phase that ran last. -/
def timeLast (micros : Nat) (stats : Statistics) : Statistics :=
  match stats.phases.getLast? with
  | none => stats
  | some last => { stats with phases := stats.phases.dropLast ++ [{ last with micros }] }

def countsJson (counts : List (String × Nat)) : Document :=
  .array (counts.map fun entry => .array [.ofText entry.1, .ofNat entry.2])

def toJson (stats : Statistics) : Document :=
  .ofMembers
    [("phases", .array (stats.phases.map fun time =>
        .ofMembers [("phase", .ofText time.phase), ("micros", .ofNat time.micros)])),
      ("functions", .ofNat stats.functions),
      ("strings", .ofNat stats.strings),
      ("temporaries_issued", .ofNat stats.temps),
      ("labels_issued", .ofNat stats.labels),
      ("ir_instructions_generated", .ofNat stats.irGenerated),
      ("ir_instructions_optimized", .ofNat stats.irOptimized),
      ("optimizer_iterations", .ofNat stats.sweeps),
      ("optimizer_converged", .bool stats.converged),
      ("optimizer_pass_changes", countsJson stats.passChanges),
      ("asm_instructions_generated", .ofNat stats.asmGenerated),
      ("asm_instructions_optimized", .ofNat stats.asmOptimized),
      ("peephole_rule_hits", countsJson stats.ruleHits)]

end Statistics

end ArmBackend
