import ArmBackend.Command.FileTree
import ArmBackend.Command.Plan

/-!
# Working directories

The command in a directory of plain files, without a real file system: what it
prints, what it writes and how it exits.
-/

namespace ArmBackend.Command

structure Run where
  exit : Exit
  stdout : String := ""
  stderr : String := ""
  tree : FileTree

namespace Workdir

def place : Place := ["work", "tmp"]

def ofFiles (files : List (String × String)) : FileTree :=
  files.foldl (fun tree file => tree.put (file.1 :: place) (.file file.2))
    (FileTree.system.put place .directory)

end Workdir

namespace Run

def files (run : Run) : List (String × String) :=
  run.tree.filesIn Workdir.place

def fail (run : Run) (reason : String) : Run :=
  { run with exit := .failure, stderr := run.stderr ++ failureLine reason ++ "\n" }

def tell (run : Run) (line : String) : Run :=
  { run with stderr := run.stderr ++ line ++ "\n" }

def print (run : Run) (text : String) : Run :=
  { run with stdout := run.stdout ++ text }

def writeDevice (run : Run) (content : String) : Device → Except FileError Run
  | .null => .ok run
  | .full => if content.isEmpty then .ok run else .error .noSpace
  | .output => .ok (run.print content)
  | .errors => .ok { run with stderr := run.stderr ++ content }

def write (run : Run) (path content : String) : Except FileError Run := do
  match ← run.tree.target Workdir.place path with
  | .file place => .ok { run with tree := run.tree.put place (.file content) }
  | .device device => run.writeDevice content device

/-- Carry out effects; the first file that cannot be written ends them. -/
def perform (failure : Option String) : Run → List Effect → Run
  | run, [] =>
    match failure with
    | none => run
    | some reason => run.fail reason
  | run, .tell line :: rest => perform failure (run.tell line) rest
  | run, .print text :: rest => perform failure (run.print text) rest
  | run, .save path content notice :: rest =>
    match run.write path content with
    | .error error => run.fail error.text
    | .ok written => perform failure (written.tell notice) rest

end Run

namespace Workdir

def run (files : List (String × String)) (words : List String) : Run :=
  let tree := ofFiles files
  match Invocation.ofWords? words with
  | none => { exit := .misuse, tree }
  | some (.answer text) => { exit := .success, stdout := text, tree }
  | some (.compile request) =>
    let plan :=
      match tree.read place request.input with
      | .error error => Plan.unreadable request.input error.text
      | .ok text => Plan.ofText request text
    Run.perform plan.failure { exit := .success, tree } plan.effects

end Workdir

end ArmBackend.Command
