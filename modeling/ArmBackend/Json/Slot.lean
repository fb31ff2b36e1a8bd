import ArmBackend.Json.Basic

/-!
# Records and choices

How the members of a record are found in a JSON value, and how the name of an
alternative is.  A record is an object, or an array of its fields in order; an
alternative without content is its name alone, or its name with null.  Every
array and object that is read uses up one of the levels that may be open at
once.
-/

namespace ArmBackend.Json

inductive Slot where
  | given (json : Document)
  /-- an object without the field -/
  | omitted
  /-- an array that ends before the field -/
  | cutOff

namespace Slot

def required {α : Type} (decode : Document → Option α) : Slot → Option α
  | given json => decode json
  | _ => none

/-- A field that may be null, or left out of an object. -/
def nullable {α : Type} (decode : Document → Option α) : Slot → Option (Option α)
  | given .null => some none
  | given json => (decode json).map some
  | omitted => some none
  | cutOff => none

def defaulted {α : Type} (default : α) (decode : Document → Option α) : Slot → Option α
  | given json => decode json
  | _ => some default

end Slot

/-- The field of the name; a repeated field is refused. -/
def member? (members : List (Option String × Document)) (name : String) : Option Slot :=
  match members.filter fun member => member.1 == some name with
  | [] => some .omitted
  | [(_, value)] => some (.given value)
  | _ => none

/-- The fields of a record in the order of their names.  Other members are skipped. -/
def slots? (names : List String) : Document → Option (List Slot)
  | .array items =>
    if items.length ≤ names.length then
      some (items.map Slot.given ++ List.replicate (names.length - items.length) Slot.cutOff)
    else none
  | .object members =>
    if members.all fun member => member.1.isSome then names.mapM (member? members) else none
  | _ => none

/-- An alternative without content. -/
def choice? {α : Type} (find : String → Option α) : (levels : Nat) → Document → Option α
  | _, .string (some name) => find name
  | _ + 1, .object [(some name, .null)] => find name
  | _, _ => none

def items? {α : Type} (decode : Document → Option α) : Document → Option (List α)
  | .array items => items.mapM decode
  | _ => none

def text? : Document → Option String
  | .string content => content
  | _ => none

def bool? : Document → Option Bool
  | .bool truth => some truth
  | _ => none

def natBelow? (limit : Nat) : Document → Option Nat
  | .number (some (.natural word)) => if word.toNat < limit then some word.toNat else none
  | _ => none

def word? : Document → Option Word
  | .number (some (.natural word)) => if word.toNat < Nat.pow 2 63 then some word else none
  | .number (some (.negative word)) => some word
  | _ => none

/-- A real number; integers count. -/
def real? : Document → Option Binary64
  | .number (some (.natural word)) => some (.ofNat word.toNat)
  | .number (some (.negative word)) => some (.ofWord word)
  | .number (some (.real value)) => some value
  | _ => none

end ArmBackend.Json
