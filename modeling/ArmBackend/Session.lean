import ArmBackend.Input
import ArmBackend.Ir.OfTree
import ArmBackend.Ir.Sweep
import ArmBackend.Machine.Check
import ArmBackend.Machine.OfProgram
import ArmBackend.Machine.Window
import ArmBackend.Session.Progress
import ArmBackend.Session.Statistics

/-!
# Sessions

A session takes one input through the phases of the backend.  Each phase takes it
one step further; a phase that fails, or that is asked for out of turn, leaves it
failed for good.
-/

namespace ArmBackend

structure Options where
  optimizeIr : Bool := true
  optimizeAsm : Bool := true
  /-- leave out the return at the end of the entry code if that returns anyway -/
  suppressReturn : Bool := false
deriving DecidableEq

structure Session where
  options : Options := {}
  progress : Progress := .idle
  program : Option Ir.Program := none
  assembly : Option Machine.Program := none
  report : Report := .empty
  stats : Statistics := {}

/-- A session after a phase was asked for, and the error if the phase failed. -/
structure Session.Step where
  session : Session
  error : Option CompileError

namespace Session

def start (options : Options) : Session :=
  { options }

def succeed (session : Session) : Step :=
  ⟨session, none⟩

/-- A failure keeps what there was. -/
def fail (session : Session) (error : CompileError) : Step :=
  ⟨{ session with
      progress := .failed
      report := session.report.addError error }, some error⟩

/-- Do the work of a phase if it may be asked for here; a session that has failed is left as it is. -/
def enter (session : Session) (phase : Phase) (work : Session → Step) : Step :=
  if session.progress = .failed then
    ⟨session, some (.internal (phase.request ++ " called after compilation failed"))⟩
  else if session.progress ∈ phase.allowed then work session
  else
    session.fail (.internal (phase.request ++ " called in state '" ++ session.progress.name ++ "'"))

def tell (diagnostics : List Diagnostic) (session : Session) : Session :=
  { session with report := session.report.addAll diagnostics }

/-- Lower the tree of the input; errors found before stop it. -/
def generateIr (input : Input) (session : Session) : Step :=
  session.enter .generateIr fun session =>
    let session := session.tell (input.warnings.map Finding.toDiagnostic)
    if input.errors.isEmpty then
      match Ir.Program.ofTree input.scopes session.options.suppressReturn input.tree with
      | .error error => session.fail error
      | .ok (program, context) =>
        succeed { session with
          progress := .irGenerated
          program := some program
          stats := { session.stats.record Phase.generateIr.title with
            functions := program.functions.length
            strings := program.strings.size
            temps := context.temps
            labels := context.labels
            irGenerated := program.instrCount
            irOptimized := program.instrCount } }
    else
      (session.tell (input.errors.map Finding.toDiagnostic)).fail
        (.general .input (toString input.errors.length ++ " upstream error(s)"))

def optimizeIr (session : Session) : Step :=
  session.enter .optimizeIr fun session =>
    match session.program with
    | none => session.fail (.internal "no IR program to optimize")
    | some program =>
      let optimized := program.optimize
      let session := session.tell optimized.warnings.diagnostics
      succeed { session with
        progress := .irOptimized
        program := some optimized.program
        stats := { session.stats.record Phase.optimizeIr.title with
          irOptimized := optimized.stats.after
          sweeps := optimized.stats.sweeps
          converged := optimized.stats.converged
          passChanges := optimized.stats.passChanges } }

def recordFrames (assembly : Machine.Program) (program : Ir.Program) : Ir.Program :=
  { program with functions := assembly.functions.foldl (fun functions function =>
      Ir.Program.setFrameSize function.name function.frameSize functions) program.functions }

def generateAsm (session : Session) : Step :=
  session.enter .generateAsm fun session =>
    match session.program with
    | none => session.fail (.internal "no IR program to generate code for")
    | some program =>
      let assembled := Machine.Program.ofIr program
      let session := session.tell assembled.warnings
      match assembled.result with
      | .error fault => session.fail fault.toError
      | .ok assembly =>
        succeed { session with
          progress := .asmGenerated
          program := some (recordFrames assembly program)
          assembly := some assembly
          stats := { session.stats.record Phase.generateAsm.title with
            asmGenerated := assembly.instrCount
            asmOptimized := assembly.instrCount } }

def optimizeAsm (session : Session) : Step :=
  session.enter .optimizeAsm fun session =>
    match session.assembly with
    | none => session.fail (.internal "no assembly to optimize")
    | some assembly =>
      let (tidied, stats) := assembly.tidy
      succeed { session with
        progress := .asmOptimized
        assembly := some tidied
        stats := { session.stats.record Phase.optimizeAsm.title with
          asmOptimized := stats.after
          ruleHits := stats.hits } }

/-- Check the assembly; every problem is an error. -/
def validate (session : Session) : Step :=
  session.enter .validate fun session =>
    match session.assembly with
    | none => session.fail (.internal "no assembly to validate")
    | some assembly =>
      let session := { session with stats := session.stats.record Phase.validate.title }
      let problems := assembly.problems
      if problems.isEmpty then succeed { session with progress := .validated }
      else
        (session.tell (problems.map fun problem => .error problem.text .unknown)).fail
          (.internal ("assembly validation found " ++ toString problems.length ++ " problem(s)"))

def run (input : Input) (session : Session) : Phase → Step
  | .generateIr => session.generateIr input
  | .optimizeIr => session.optimizeIr
  | .generateAsm => session.generateAsm
  | .optimizeAsm => session.optimizeAsm
  | .validate => session.validate

def runAll (input : Input) (session : Session) : List Phase → Session
  | [] => session
  | phase :: rest =>
    let step := session.run input phase
    if step.error.isSome then step.session else step.session.runAll input rest

end Session

namespace Options

def phases (options : Options) : List Phase :=
  [.generateIr] ++ (if options.optimizeIr then [.optimizeIr] else []) ++
    [.generateAsm] ++ (if options.optimizeAsm then [.optimizeAsm] else []) ++
    [.validate]

end Options

def compile (options : Options) (input : Input) : Session :=
  (Session.start options).runAll input options.phases

namespace Session

def irText? (session : Session) : Option String :=
  session.program.map Ir.Program.text

def assemblyText? (session : Session) : Option String :=
  session.assembly.map Machine.Program.text

def succeeded (session : Session) : Bool :=
  session.progress = .validated

end Session

end ArmBackend
