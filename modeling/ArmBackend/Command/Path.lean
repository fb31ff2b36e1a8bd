/-!
# Paths

A path is a row of names between slashes.  It starts at the root if a slash comes
first, and at the working directory otherwise.
-/

namespace ArmBackend.Command

structure Path where
  absolute : Bool
  names : List String
  /-- a slash comes last: only a directory can be meant -/
  slash : Bool
deriving DecidableEq

namespace Path

/-- The most bytes of a path. -/
def longest : Nat := 4095

def longestName : Nat := 255

/-- What stands between the slashes. -/
def parts : List Char → List String
  | [] => [""]
  | '/' :: rest => "" :: parts rest
  | char :: rest =>
    match parts rest with
    | [] => [String.singleton char]
    | first :: others => (String.singleton char ++ first) :: others

/-- Slashes in a row count as one. -/
def ofText (text : String) : Path where
  absolute := text.toList.head? = some '/'
  names := (parts text.toList).filter (· != "")
  slash := text.toList.getLast? = some '/'

/-- The directory itself, or the one above it. -/
def isDots (name : String) : Bool :=
  name == "." || name == ".."

def isTooLong (text : String) : Bool :=
  decide (longest < text.utf8ByteSize)

def isNameTooLong (name : String) : Bool :=
  decide (longestName < name.utf8ByteSize)

end Path

end ArmBackend.Command
