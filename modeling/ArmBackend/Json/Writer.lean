import ArmBackend.Word
import ArmBackend.Json.Basic

/-!
# Writing values

A value over several lines: each item of an array and each member of an object
has a line of its own, indented by two blanks a level.
-/

namespace ArmBackend.Json

/-- A code below 256 with four hexadecimal digits. -/
def unitText (code : Nat) : String :=
  "\\u00" ++ (if code < 16 then "0" else "") ++ hexText code

def stringChar (char : Char) : String :=
  if char = '"' then "\\\""
  else if char = '\\' then "\\\\"
  else if char.toNat = 8 then "\\b"
  else if char.toNat = 12 then "\\f"
  else if char = '\n' then "\\n"
  else if char = '\r' then "\\r"
  else if char = '\t' then "\\t"
  else if char.toNat < 32 then unitText char.toNat
  else String.singleton char

def stringText (content : String) : String :=
  "\"" ++ String.join (content.toList.map stringChar) ++ "\""

def newline (level : Nat) : String :=
  "\n" ++ String.ofList (List.replicate (2 * level) ' ')

mutual

/-- The text of a value whose first line stands at the given level. -/
def pretty (level : Nat) : Json Numeral → String
  | .null => "null"
  | .bool truth => if truth then "true" else "false"
  | .number numeral => String.ofList (numeral.text true)
  | .string content => stringText (content.getD "")
  | .array [] => "[]"
  | .array (item :: rest) =>
    "[" ++ newline (level + 1) ++ pretty (level + 1) item ++ prettyItems (level + 1) rest ++
      newline level ++ "]"
  | .object [] => "\x7b\x7d"
  | .object ((key, value) :: rest) =>
    "\x7b" ++ newline (level + 1) ++ stringText (key.getD "") ++ ": " ++
      pretty (level + 1) value ++ prettyMembers (level + 1) rest ++ newline level ++ "\x7d"

def prettyItems (level : Nat) : List (Json Numeral) → String
  | [] => ""
  | item :: rest => "," ++ newline level ++ pretty level item ++ prettyItems level rest

def prettyMembers (level : Nat) : List (Option String × Json Numeral) → String
  | [] => ""
  | (key, value) :: rest =>
    "," ++ newline level ++ stringText (key.getD "") ++ ": " ++ pretty level value ++
      prettyMembers level rest

end

def text (json : Json Numeral) : String :=
  json.pretty 0

end ArmBackend.Json
