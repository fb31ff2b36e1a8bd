/-!
# Register words

The contents of a 64-bit register.  A word has no sign of its own: it is read
as an unsigned number, or as a two's complement number where the program says
so.
-/

namespace ArmBackend

abbrev Word := BitVec 64

namespace Word

/-- The signed number that a word stands for, in decimal. -/
def signedText (word : Word) : String :=
  toString word.toInt

def ofBool (truth : Bool) : Word :=
  if truth then 1 else 0

end Word

/-- The text of a number in lower-case hexadecimal, without leading zeros. -/
def hexText (number : Nat) : String :=
  String.ofList (Nat.toDigits 16 number)

end ArmBackend
