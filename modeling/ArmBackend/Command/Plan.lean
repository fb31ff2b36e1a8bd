import ArmBackend.Command.Arguments
import ArmBackend.Input.Reader

/-!
# Plans

What the command does once its input is read, as a list of effects.  A plan is
carried out in order; a file that cannot be written ends it.
-/

namespace ArmBackend.Command

inductive Effect where
  /-- a line on the error stream -/
  | tell (line : String)
  /-- text on the output stream -/
  | print (text : String)
  /-- write a file, then say so on the error stream -/
  | save (path content notice : String)
deriving DecidableEq

/-- Effects in order, and why the command fails in the end if it does. -/
structure Plan where
  effects : List Effect := []
  failure : Option String := none
deriving DecidableEq

def failureLine (reason : String) : String :=
  "Error: " ++ reason

inductive Exit where
  | success
  | failure
  /-- the words were a mistake -/
  | misuse
deriving DecidableEq

namespace Exit

def code : Exit → Nat
  | success => 0
  | failure => 1
  | misuse => 2

end Exit

namespace Plan

def irEffects (request : Request) (ir : String) : List Effect :=
  (request.emitIr.toList.map fun path => .save path ir ("IR written to " ++ path)) ++
    if request.printIr then [.print (ir ++ "\n")] else []

def assemblyEffects (request : Request) (assembly : String) : List Effect :=
  match request.output with
  | some path => [.save path assembly ("Assembly written to " ++ path)]
  | none => [.print assembly]

/-- The results of a compilation; what there is of them is written even if it failed. -/
def ofSession (request : Request) (session : Session) : Plan where
  effects :=
    (session.report.diagnostics.map fun diagnostic => .tell diagnostic.text) ++
      session.irText?.toList.flatMap (irEffects request) ++
      (if request.stats then [.tell (Json.Library.standard.print session.stats.toJson)] else []) ++
      session.assemblyText?.toList.flatMap (assemblyEffects request)
  failure :=
    if session.succeeded then none
    else some ("compilation failed (" ++ session.progress.name ++ "): " ++ session.report.summary)

def malformed : Plan where
  failure := some (Origin.input.title ++ ": malformed compilation input")

def unreadable (path reason : String) : Plan where
  failure := some ("cannot read " ++ path ++ ": " ++ reason)

def ofText (request : Request) (text : String) : Plan :=
  match Input.parse? .standard text with
  | none => malformed
  | some input => ofSession request (compile request.options input)

def answer (text : String) : Plan where
  effects := [.print text]

end Plan

end ArmBackend.Command
