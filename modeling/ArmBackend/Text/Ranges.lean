/-!
# Sets of characters

A set of characters given by the ranges of its code points, or, where it has many of
them, by the lengths of its runs.
-/

namespace ArmBackend.Text

/-- The code point lies in one of the ranges, ends included. -/
def inRanges (ranges : List (Nat × Nat)) (code : Nat) : Bool :=
  ranges.any fun range => decide (range.1 ≤ code) && decide (code ≤ range.2)

/-- The code point lies in the set that has the runs: the list holds in turn how many
code points are out of the set and how many are in it. -/
def inRuns : List Nat → Nat → Bool
  | outside :: inside :: runs, code =>
      if code < outside then false
      else code < outside + inside || inRuns runs (code - (outside + inside))
  | _, _ => false

example : (List.range 12).filter (inRuns [2, 1, 3, 4]) = [2, 6, 7, 8, 9] := by decide

end ArmBackend.Text
