import ArmBackend.Json.Token

/-!
# Reading values

Tokens become a value by a machine with a stack: one frame for each array or
object that is still open, and a note of what may come next.
-/

namespace ArmBackend.Json

/-- An open array or object, with what it holds so far in reverse. -/
inductive Frame where
  | array (items : List (Json Numeral))
  | object (members : List (Option String × Json Numeral)) (key : Option String)

inductive Expect where
  | value
  | itemOrClose
  | keyOrClose
  | key
  | colon
  | separator
deriving DecidableEq

inductive Reading where
  | inside (stack : List Frame) (expect : Expect)
  | complete (value : Json Numeral)

namespace Reading

/-- A finished value goes into the innermost open frame. -/
def deliver (value : Json Numeral) : List Frame → Reading
  | [] => complete value
  | .array items :: outer => inside (.array (value :: items) :: outer) .separator
  | .object members key :: outer =>
    inside (.object ((key, value) :: members) none :: outer) .separator

def value (stack : List Frame) : Token → Option Reading
  | .null => some (deliver .null stack)
  | .bool truth => some (deliver (.bool truth) stack)
  | .number numeral => some (deliver (.number numeral) stack)
  | .string content => some (deliver (.string content) stack)
  | .openArray => some (inside (.array [] :: stack) .itemOrClose)
  | .openObject => some (inside (.object [] none :: stack) .keyOrClose)
  | _ => none

def key : List Frame → Token → Option Reading
  | .object members _ :: outer, .string content =>
    some (inside (.object members content :: outer) .colon)
  | _, _ => none

def close : List Frame → Token → Option Reading
  | .array items :: outer, .closeArray => some (deliver (.array items.reverse) outer)
  | .object members _ :: outer, .closeObject => some (deliver (.object members.reverse) outer)
  | _, _ => none

/-- A token behind a value: a comma, or the end of the frame. -/
def separator : List Frame → Token → Option Reading
  | .array items :: outer, .comma => some (inside (.array items :: outer) .value)
  | .object members held :: outer, .comma => some (inside (.object members held :: outer) .key)
  | stack, token => close stack token

def feed : Reading → Token → Option Reading
  | complete _, _ => none
  | inside stack .value, token => value stack token
  | inside stack .itemOrClose, token =>
    if token = .closeArray then close stack token else value stack token
  | inside stack .keyOrClose, token =>
    if token = .closeObject then close stack token else key stack token
  | inside stack .key, token => key stack token
  | inside stack .colon, token => if token = .colon then some (inside stack .value) else none
  | inside stack .separator, token => separator stack token

def run : Reading → List Token → Option Reading
  | reading, [] => some reading
  | reading, token :: rest =>
    match reading.feed token with
    | none => none
    | some next => run next rest

end Reading

def parse? (text : String) : Option (Json Numeral) :=
  match tokens? text.toList with
  | none => none
  | some tokens =>
    match (Reading.inside [] .value).run tokens with
    | some (.complete value) => some value
    | _ => none

end ArmBackend.Json
