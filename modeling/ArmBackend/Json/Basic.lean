import ArmBackend.Decimal.Numeral

/-!
# JSON values

A JSON value as a tree.  In a text its numbers are numerals; in a document they are what
the numerals denote.  Objects keep their members in order, repeated keys included.
-/

namespace ArmBackend

/-- A value whose numbers are of the type `ν`. -/
inductive Json (ν : Type) where
  | null
  | bool (truth : Bool)
  | number (figure : ν)
  /-- `none` for a text with half a surrogate pair, which denotes no characters -/
  | string (content : Option String)
  | array (items : List (Json ν))
  | object (members : List (Option String × Json ν))

inductive Number where
  /-- an integer from zero up to `2 ^ 64 - 1` -/
  | natural (word : Word)
  /-- an integer from `-2 ^ 63` up to minus one -/
  | negative (word : Word)
  | real (value : Binary64)
deriving DecidableEq

/-- A value as fields are read from it; `none` is a number out of range. -/
abbrev Document := Json (Option Number)

namespace Json

variable {ν μ : Type}

def ofText (text : String) : Json ν :=
  .string (some text)

def ofMembers (members : List (String × Json ν)) : Json ν :=
  .object (members.map fun member => (some member.1, member.2))

def ofNat (number : Nat) : Document :=
  .number (some (.natural (BitVec.ofNat 64 number)))

def ofWord (word : Word) : Document :=
  .number (some (if word.toInt < 0 then .negative word else .natural word))

def ofReal (value : Binary64) : Document :=
  .number (some (.real value))

mutual

/-- Put a value in the place of each number. -/
def replace (place : ν → Json μ) : Json ν → Json μ
  | null => null
  | bool truth => bool truth
  | number figure => place figure
  | string content => string content
  | array items => array (replaceItems place items)
  | object members => object (replaceMembers place members)

def replaceItems (place : ν → Json μ) : List (Json ν) → List (Json μ)
  | [] => []
  | item :: rest => replace place item :: replaceItems place rest

def replaceMembers (place : ν → Json μ) :
    List (Option String × Json ν) → List (Option String × Json μ)
  | [] => []
  | (key, value) :: rest => (key, replace place value) :: replaceMembers place rest

end

end Json

end ArmBackend
