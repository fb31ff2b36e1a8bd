/-!
# Source positions

Lines and columns count from one; line zero marks code that stands nowhere in
the source.
-/

namespace ArmBackend

structure Position where
  line : Nat := 0
  column : Nat := 0
deriving DecidableEq, Inhabited

namespace Position

def unknown : Position := {}

/-- The start of a line, for problems that are known by line only. -/
def atLine (line : Nat) : Position := ⟨line, 0⟩

def isKnown (position : Position) : Bool :=
  position.line != 0

def text (position : Position) : String :=
  if position.isKnown then s!"{position.line}:{position.column}" else "<unknown>"

end Position

end ArmBackend
