import ArmBackend.Text.Ranges

/-!
# Blank characters

The characters with the Unicode property `White_Space`, and texts without blanks
at their ends.
-/

namespace ArmBackend.Text

def blankRanges : List (Nat × Nat) := [
  (0x9, 0xd), (0x20, 0x20), (0x85, 0x85), (0xa0, 0xa0), (0x1680, 0x1680), (0x2000, 0x200a),
  (0x2028, 0x2029), (0x202f, 0x202f), (0x205f, 0x205f), (0x3000, 0x3000)
]

def isBlank (char : Char) : Bool :=
  inRanges blankRanges char.toNat

/-- The text without the blanks at its start and at its end. -/
def trimmed (text : String) : String :=
  String.ofList ((text.toList.dropWhile isBlank).reverse.dropWhile isBlank).reverse

end ArmBackend.Text
