import ArmBackend.Json.Basic

/-!
# Tokens

A JSON text is cut into tokens by a machine that takes one character at a time.
Its mode remembers the token that is being read, with the characters so far in
reverse.
-/

namespace ArmBackend.Json

inductive Token where
  | openArray
  | closeArray
  | openObject
  | closeObject
  | comma
  | colon
  | null
  | bool (truth : Bool)
  | number (numeral : Numeral)
  | string (content : Option String)
deriving DecidableEq

/-- One item of a string: a character, or a 16-bit unit given by its code. -/
inductive Piece where
  | char (char : Char)
  | unit (code : Nat)
deriving DecidableEq

namespace Piece

def isHighSurrogate (code : Nat) : Bool :=
  decide (0xd800 ≤ code) && decide (code < 0xdc00)

def isLowSurrogate (code : Nat) : Bool :=
  decide (0xdc00 ≤ code) && decide (code < 0xe000)

/-- The character of a surrogate pair. -/
def pair (high low : Nat) : Char :=
  Char.ofNat (0x10000 + (high - 0xd800) * 0x400 + (low - 0xdc00))

/-- The characters of the pieces, if every surrogate has its partner. -/
def resolve : List Piece → Option (List Char)
  | [] => some []
  | .char plain :: rest => (resolve rest).map (plain :: ·)
  | .unit code :: rest =>
    if isHighSurrogate code then
      match rest with
      | .unit low :: rest =>
        if isLowSurrogate low then (resolve rest).map (pair code low :: ·) else none
      | _ => none
    else if isLowSurrogate code then none
    else (resolve rest).map (Char.ofNat code :: ·)

end Piece

inductive Mode where
  | between
  | word (letters : List Char)
  | number (chars : List Char)
  | string (pieces : List Piece)
  | escape (pieces : List Piece)
  | unit (pieces : List Piece) (digits : List Nat)
deriving DecidableEq

namespace Token

def isBlank (char : Char) : Bool :=
  char == ' ' || char == '\n' || char == '\t' || char == '\r'

/-- A digit string without a zero in front, unless it is zero itself. -/
def isWhole : List Char → Bool
  | [] => false
  | ['0'] => true
  | digit :: _ => digit != '0'

def digitsValue (digits : List Char) : Nat :=
  digits.foldl (fun value digit => value * 10 + (digit.toNat - 48)) 0

/-- The exponent behind its mark; a list without digits is refused. -/
def exponent? (chars : List Char) : Option Int :=
  let (negative, digits) :=
    match chars with
    | '-' :: rest => (true, rest)
    | '+' :: rest => (false, rest)
    | _ => (false, chars)
  if digits.isEmpty || !digits.all Char.isDigit then none
  else some (if negative then -(digitsValue digits : Int) else digitsValue digits)

/-- What may follow the digits before the point and those after it. -/
def withExponent? (negative : Bool) (whole fraction : List Char) :
    List Char → Option Numeral
  | [] => some ⟨negative, whole, fraction, none⟩
  | mark :: rest =>
    if mark == 'e' || mark == 'E' then
      (exponent? rest).map fun exponent => ⟨negative, whole, fraction, some exponent⟩
    else none

def unsigned? (negative : Bool) (chars : List Char) : Option Numeral :=
  let whole := chars.takeWhile Char.isDigit
  if !isWhole whole then none
  else
    match chars.dropWhile Char.isDigit with
    | '.' :: rest =>
      let fraction := rest.takeWhile Char.isDigit
      if fraction.isEmpty then none
      else withExponent? negative whole fraction (rest.dropWhile Char.isDigit)
    | rest => withExponent? negative whole [] rest

def numeral? : List Char → Option Numeral
  | '-' :: rest => unsigned? true rest
  | chars => unsigned? false chars

def ofWord? (letters : List Char) : Option Token :=
  if letters = ['n', 'u', 'l', 'l'] then some .null
  else if letters = ['t', 'r', 'u', 'e'] then some (.bool true)
  else if letters = ['f', 'a', 'l', 's', 'e'] then some (.bool false)
  else none

def ofPieces (pieces : List Piece) : Token :=
  .string ((Piece.resolve pieces).map String.ofList)

def ofMark? (char : Char) : Option Token :=
  if char = '[' then some .openArray
  else if char = ']' then some .closeArray
  else if char.toNat = 0x7b then some .openObject
  else if char.toNat = 0x7d then some .closeObject
  else if char = ',' then some .comma
  else if char = ':' then some .colon
  else none

end Token

namespace Mode

def isNumberChar (char : Char) : Bool :=
  char.isDigit || char == '-' || char == '+' || char == '.' || char == 'e' || char == 'E'

def escaped? (char : Char) : Option Char :=
  if char = '"' then some '"'
  else if char = '\\' then some '\\'
  else if char = '/' then some '/'
  else if char = 'b' then some (Char.ofNat 8)
  else if char = 'f' then some (Char.ofNat 12)
  else if char = 'n' then some '\n'
  else if char = 'r' then some '\r'
  else if char = 't' then some '\t'
  else none

def hexDigit? (char : Char) : Option Nat :=
  let code := char.toNat
  if 48 ≤ code ∧ code ≤ 57 then some (code - 48)
  else if 97 ≤ code ∧ code ≤ 102 then some (code - 87)
  else if 65 ≤ code ∧ code ≤ 70 then some (code - 55)
  else none

/-- The mode after a character that starts a token, and the token if it is complete. -/
def start (char : Char) : Option (List Token × Mode) :=
  if Token.isBlank char then some ([], between)
  else if char = '"' then some ([], string [])
  else if char.isDigit || char == '-' then some ([], number [char])
  else if char.isLower then some ([], word [char])
  else (Token.ofMark? char).map fun mark => ([mark], between)

/-- Close a token and let the character start the next one. -/
def startAfter (token : Option Token) (char : Char) : Option (List Token × Mode) :=
  match token, start char with
  | some token, some (tokens, mode) => some (token :: tokens, mode)
  | _, _ => none

/-- One more character: the tokens that it completes and the mode that it leaves. -/
def step : Mode → Char → Option (List Token × Mode)
  | between, char => start char
  | word letters, char =>
    if char.isLower then some ([], word (char :: letters))
    else startAfter (Token.ofWord? letters.reverse) char
  | number chars, char =>
    if isNumberChar char then some ([], number (char :: chars))
    else startAfter ((Token.numeral? chars.reverse).map Token.number) char
  | string pieces, char =>
    if char = '"' then some ([Token.ofPieces pieces.reverse], between)
    else if char = '\\' then some ([], escape pieces)
    else if char.toNat < 32 then none
    else some ([], string (.char char :: pieces))
  | escape pieces, char =>
    if char = 'u' then some ([], unit pieces [])
    else (escaped? char).map fun plain => ([], string (.char plain :: pieces))
  | unit pieces digits, char =>
    match hexDigit? char, digits with
    | none, _ => none
    | some last, [third, second, first] =>
      some ([], string (.unit (((first * 16 + second) * 16 + third) * 16 + last) :: pieces))
    | some digit, _ => some ([], unit pieces (digit :: digits))

/-- The tokens that the end of the text completes. -/
def finish : Mode → Option (List Token)
  | between => some []
  | word letters => (Token.ofWord? letters.reverse).map ([·])
  | number chars => (Token.numeral? chars.reverse).map ([.number ·])
  | _ => none

/-- Run the machine; `done` holds the tokens so far, the last one first. -/
def run (done : List Token) : Mode → List Char → Option (List Token)
  | mode, [] => mode.finish.map fun tokens => done.reverse ++ tokens
  | mode, char :: rest =>
    match mode.step char with
    | none => none
    | some (tokens, next) => run (tokens.reverse ++ done) next rest

end Mode

def tokens? (text : List Char) : Option (List Token) :=
  Mode.between.run [] text

end ArmBackend.Json
