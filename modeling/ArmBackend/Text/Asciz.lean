/-!
# Assembler strings

The argument of an `.asciz` directive.  The assembler reads bytes, so a string
is written byte by byte from its UTF-8 form, in visible ASCII characters only.
-/

namespace ArmBackend.Text

def octalDigit (number : Nat) : Char :=
  Char.ofNat (48 + number % 8)

def ascizByte (byte : UInt8) : List Char :=
  let code := byte.toNat
  if code = 34 then ['\\', '"']
  else if code = 92 then ['\\', '\\']
  else if code = 10 then ['\\', 'n']
  else if code = 9 then ['\\', 't']
  else if 32 ≤ code ∧ code ≤ 126 then [Char.ofNat code]
  else ['\\', octalDigit (code / 64), octalDigit (code / 8), octalDigit code]

def utf8Bytes (text : String) : List UInt8 :=
  text.toUTF8.data.toList

/-- The text between the quotes of the directive. -/
def asciz (text : String) : String :=
  String.ofList ((utf8Bytes text).flatMap ascizByte)

end ArmBackend.Text
