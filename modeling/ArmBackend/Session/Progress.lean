/-!
# Progress

The phases of a compilation, and how far it has come.
-/

namespace ArmBackend

inductive Phase where
  | generateIr
  | optimizeIr
  | generateAsm
  | optimizeAsm
  | validate
deriving DecidableEq

namespace Phase

def all : List Phase :=
  [generateIr, optimizeIr, generateAsm, optimizeAsm, validate]

/-- The request for the phase, as messages name it. -/
def request : Phase → String
  | generateIr => "generate_ir"
  | optimizeIr => "optimize_ir"
  | generateAsm => "generate_arm64"
  | optimizeAsm => "optimize_arm64"
  | validate => "validate"

def ofRequest? (text : String) : Option Phase :=
  all.find? fun phase => phase.request == text

def title : Phase → String
  | generateIr => "ir-generation"
  | optimizeIr => "ir-optimization"
  | generateAsm => "arm64-generation"
  | optimizeAsm => "arm64-optimization"
  | validate => "validation"

end Phase

inductive Progress where
  | idle
  | irGenerated
  | irOptimized
  | asmGenerated
  | asmOptimized
  | validated
  | failed
deriving DecidableEq

namespace Progress

def name : Progress → String
  | idle => "idle"
  | irGenerated => "IR generated"
  | irOptimized => "IR optimized"
  | asmGenerated => "ARM64 generated"
  | asmOptimized => "ARM64 optimized"
  | validated => "validated"
  | failed => "failed"

end Progress

/-- Where a phase may be asked for. -/
def Phase.allowed : Phase → List Progress
  | generateIr => [.idle]
  | optimizeIr => [.irGenerated]
  | generateAsm => [.irGenerated, .irOptimized]
  | optimizeAsm => [.asmGenerated]
  | validate => [.asmGenerated, .asmOptimized]

end ArmBackend
