import ArmBackend.Word
import ArmBackend.Text.Combining
import ArmBackend.Text.Ignorable
import ArmBackend.Text.Printable

/-!
# Quoted strings

A string literal as a listing shows it: between double quotes, on one line, with
every character that would not stand alone written by its code point.
-/

namespace ArmBackend.Text

def codePoint (char : Char) : String :=
  "\\u\x7b" ++ hexText char.toNat ++ "\x7d"

/-- The character can be told from its neighbours when it is printed as it is. -/
def standsAlone (char : Char) : Bool :=
  isPrintable char && !isCombining char && !isIgnorable char

def quotedChar (char : Char) : String :=
  if char.toNat = 0 then "\\0"
  else if char = '\t' then "\\t"
  else if char = '\r' then "\\r"
  else if char = '\n' then "\\n"
  else if char = '"' then "\\\""
  else if char = '\\' then "\\\\"
  else if standsAlone char then String.singleton char
  else codePoint char

def quoted (text : String) : String :=
  "\"" ++ String.join (text.toList.map quotedChar) ++ "\""

end ArmBackend.Text
