import ArmBackend.Diagnostic
import ArmBackend.Ir.Pass.DeadCode
import ArmBackend.Ir.Pass.Folding
import ArmBackend.Ir.Pass.Jumps
import ArmBackend.Ir.Pass.Labels
import ArmBackend.Ir.Pass.LoadForwarding
import ArmBackend.Ir.Pass.Propagation
import ArmBackend.Ir.Program

/-!
# Passes

The six passes over the code of one function, and the log of the warnings that
folding gives.
-/

namespace ArmBackend.Ir

structure Warning where
  function : String
  instr : String
  line : Nat
  message : String
deriving DecidableEq

namespace Warning

def ofZeroDivision (function : String) (instr : Instr) : Warning :=
  { function
    instr := instr.text
    line := instr.line
    message :=
      (if instr.opcode = .div then "division" else "remainder") ++ " by zero in '" ++ function ++
        "' is left unfolded" }

/-- The warnings are about one instruction: same function, text and line. -/
def sameInstr (left right : Warning) : Bool :=
  left.function == right.function && left.instr == right.instr && left.line == right.line

def toDiagnostic (warning : Warning) : Diagnostic :=
  .warning warning.message (.atLine warning.line)

end Warning

/-- The warnings given so far; no instruction is warned about twice. -/
abbrev WarningLog := List Warning

namespace WarningLog

def add (log : WarningLog) (warning : Warning) : WarningLog :=
  if log.any (Warning.sameInstr warning) then log else log ++ [warning]

def addAll (log : WarningLog) (warnings : List Warning) : WarningLog :=
  warnings.foldl add log

def diagnostics (log : WarningLog) : List Diagnostic :=
  log.map Warning.toDiagnostic

end WarningLog

inductive Pass where
  | propagation
  | folding
  | deadCode
  | loadForwarding
  | labels
  | jumps
deriving DecidableEq

namespace Pass

def standard : List Pass :=
  [propagation, folding, deadCode, loadForwarding, labels, jumps]

def name : Pass → String
  | propagation => "constant-propagation"
  | folding => "constant-folding"
  | deadCode => "dead-code-elimination"
  | loadForwarding => "redundant-load-removal"
  | labels => "unused-label-removal"
  | jumps => "peephole"

def ofName? (text : String) : Option Pass :=
  standard.find? fun pass => pass.name == text

def revise : Pass → List Instr → Revision
  | propagation => propagateConstants
  | folding => foldConstants
  | deadCode => dropDeadCode
  | loadForwarding => forwardLoads
  | labels => dropUnusedLabels
  | jumps => tidyJumps

def warnings (function : String) (code : List Instr) : Pass → List Warning
  | folding => (zeroDivisions code).map (Warning.ofZeroDivision function)
  | _ => []

def run (pass : Pass) (function : Function) : Function × Bool :=
  let revised := pass.revise function.code
  ({ function with code := revised.code }, revised.changed)

def log (pass : Pass) (function : Function) (warnings : WarningLog) : WarningLog :=
  warnings.addAll (pass.warnings function.name function.code)

end Pass

end ArmBackend.Ir
