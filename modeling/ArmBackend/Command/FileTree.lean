import ArmBackend.Command.Path

/-!
# File trees

Directories, files and devices without a real file system, and how paths lead to
them.
-/

namespace ArmBackend.Command

/-- Why a path cannot be read or written. -/
inductive FileError where
  | notFound
  | notDirectory
  | isDirectory
  | noSpace
  | nameTooLong
deriving DecidableEq

namespace FileError

def all : List FileError :=
  [notFound, notDirectory, isDirectory, noSpace, nameTooLong]

def number : FileError → Nat
  | notFound => 2
  | notDirectory => 20
  | isDirectory => 21
  | noSpace => 28
  | nameTooLong => 36

def ofNumber? (number : Nat) : Option FileError :=
  all.find? fun error => error.number == number

def reason : FileError → String
  | notFound => "No such file or directory"
  | notDirectory => "Not a directory"
  | isDirectory => "Is a directory"
  | noSpace => "No space left on device"
  | nameTooLong => "File name too long"

def numbered (reason : String) (number : Nat) : String :=
  reason ++ " (os error " ++ toString number ++ ")"

def text (error : FileError) : String :=
  numbered error.reason error.number

end FileError

inductive Device where
  /-- is empty and swallows what is written -/
  | null
  /-- has no room for anything -/
  | full
  | output
  | errors
deriving DecidableEq

inductive Entry where
  | file (content : String)
  | device (device : Device)
  | directory
deriving DecidableEq

/-- Where an entry is: the names that lead to it from the root, the last one first. -/
abbrev Place := List String

structure FileTree where
  entries : List (Place × Entry) := []
deriving DecidableEq

namespace FileTree

/-- The entry at a place; the root is always there. -/
def get? (tree : FileTree) (place : Place) : Option Entry :=
  if place.isEmpty then some .directory else tree.entries.lookup place

def put (tree : FileTree) (place : Place) (entry : Entry) : FileTree :=
  ⟨tree.entries.filter (fun other => other.1 != place) ++ [(place, entry)]⟩

def filesIn (tree : FileTree) (place : Place) : List (String × String) :=
  tree.entries.filterMap fun
    | (name :: above, .file content) => if above = place then some (name, content) else none
    | _ => none

def requireDirectory (tree : FileTree) (place : Place) : Except FileError Unit :=
  if tree.get? place = some .directory then .ok () else .error .notDirectory

/-- Follow one name; the root is above itself. -/
def follow (tree : FileTree) (place : Place) (name : String) : Except FileError Place := do
  tree.requireDirectory place
  if name = "." then .ok place
  else if name = ".." then .ok place.tail
  else if Path.isNameTooLong name then .error .nameTooLong
  else if (tree.get? (name :: place)).isSome then .ok (name :: place)
  else .error .notFound

def followAll (tree : FileTree) : Place → List String → Except FileError Place
  | place, [] => .ok place
  | place, name :: rest => do
    let next ← tree.follow place name
    tree.followAll next rest

/-- The path of a text, and where it starts. -/
def start (workdir : Place) (text : String) : Except FileError (Path × Place) :=
  if Path.isTooLong text then .error .nameTooLong
  else
    let path := Path.ofText text
    .ok (path, if path.absolute then [] else workdir)

/-- The content that a path leads to; no device has any. -/
def read (tree : FileTree) (workdir : Place) (text : String) : Except FileError String := do
  let (path, first) ← start workdir text
  let place ← tree.followAll first path.names
  match tree.get? place with
  | some (.file content) => if path.slash then .error .notDirectory else .ok content
  | some (.device _) => if path.slash then .error .notDirectory else .ok ""
  | _ => .error .isDirectory

inductive Target where
  /-- a file, which need not be there yet -/
  | file (place : Place)
  | device (device : Device)
deriving DecidableEq

def targetIn (tree : FileTree) (place : Place) (name : String) : Except FileError Target :=
  if Path.isNameTooLong name then .error .nameTooLong
  else
    match tree.get? (name :: place) with
    | some .directory => .error .isDirectory
    | some (.device device) => .ok (.device device)
    | _ => .ok (.file (name :: place))

/-- What a path leads to when it is written; the directory of its last name must be there. -/
def target (tree : FileTree) (workdir : Place) (text : String) : Except FileError Target := do
  let (path, first) ← start workdir text
  match path.names.getLast? with
  | none => .error .isDirectory
  | some name =>
    let place ← tree.followAll first path.names.dropLast
    tree.requireDirectory place
    if path.slash || Path.isDots name then .error .isDirectory else tree.targetIn place name

def systemDirectories : List String :=
  ["bin", "boot", "dev", "etc", "home", "lib", "media", "mnt", "opt", "proc", "root", "run", "sbin",
    "srv", "sys", "tmp", "usr", "var"]

/-- The devices that a system has; nothing comes in from outside. -/
def systemDevices : List (String × Device) :=
  [("null", .null), ("full", .full), ("stdin", .null), ("stdout", .output), ("stderr", .errors)]

def system : FileTree :=
  ⟨(systemDirectories.map fun name => ([name], .directory)) ++
    systemDevices.map fun entry => ([entry.1, "dev"], .device entry.2)⟩

end FileTree

end ArmBackend.Command
