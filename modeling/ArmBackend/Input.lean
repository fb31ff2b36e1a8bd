import ArmBackend.Diagnostic
import ArmBackend.Scope
import ArmBackend.Tree.Stmt

/-!
# Compilation input

What the earlier stages hand over for one compilation: the tree, the scopes, and
the findings that they reported.
-/

namespace ArmBackend

inductive FindingStage where
  | lexical
  | grammar
  | semantic
deriving DecidableEq

namespace FindingStage

def all : List FindingStage :=
  [lexical, grammar, semantic]

def name : FindingStage → String
  | lexical => "lexical"
  | grammar => "syntax"
  | semantic => "semantic"

def ofName? (text : String) : Option FindingStage :=
  all.find? fun stage => stage.name == text

def stage : FindingStage → Stage
  | lexical => .lexical
  | grammar => .parse
  | semantic => .semantic

end FindingStage

/-- A problem reported before the backend runs; warnings do not stop it. -/
structure Finding where
  stage : FindingStage
  message : String
  position : Position := .unknown
  isWarning : Bool := false
deriving DecidableEq

namespace Finding

def toError (finding : Finding) : CompileError :=
  .located finding.stage.stage finding.position finding.message

def toDiagnostic (finding : Finding) : Diagnostic :=
  if finding.isWarning then .warning finding.message finding.position
  else .ofError finding.toError

end Finding

structure Input where
  tree : Tree
  scopes : ScopeTrace := .empty
  findings : List Finding := []

namespace Input

def warnings (input : Input) : List Finding :=
  input.findings.filter Finding.isWarning

def errors (input : Input) : List Finding :=
  input.findings.filter fun finding => !finding.isWarning

end Input

end ArmBackend
