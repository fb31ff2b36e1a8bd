import ArmBackend.Word

/-!
# Double-precision numbers

A floating-point value is held as its 64-bit pattern, so that equality of
values is equality of patterns and the two zeros stay apart.  All is computed
exactly from the patterns; where the exact result has no pattern of its own, it is
rounded to the nearest one that has, and of two to the even one.
-/

namespace ArmBackend

/-- A double-precision number, as its bit pattern. -/
structure Binary64 where
  bits : Word
deriving DecidableEq

namespace Binary64

def negative (value : Binary64) : Bool :=
  value.bits.msb

/-- The pattern without its sign, as a number; it grows with the magnitude. -/
def magnitude (value : Binary64) : Nat :=
  value.bits.toNat % Nat.pow 2 63

/-- The eleven exponent bits. -/
def exponentField (value : Binary64) : Nat :=
  value.magnitude / Nat.pow 2 52

/-- The fifty-two fraction bits. -/
def fractionField (value : Binary64) : Nat :=
  value.magnitude % Nat.pow 2 52

def isNaN (value : Binary64) : Bool :=
  value.exponentField == 2047 && value.fractionField != 0

def isInfinite (value : Binary64) : Bool :=
  value.exponentField == 2047 && value.fractionField == 0

/-- Both zeros count. -/
def isZero (value : Binary64) : Bool :=
  value.magnitude == 0

/-- The integer `m` of a finite magnitude `m * 2 ^ q`. -/
def significand (value : Binary64) : Nat :=
  if value.exponentField = 0 then value.fractionField else Nat.pow 2 52 + value.fractionField

/-- The power `q` of a finite magnitude `m * 2 ^ q`. -/
def scale (value : Binary64) : Int :=
  if value.exponentField = 0 then -1074 else (value.exponentField : Int) - 1075

def ofSigned (sign : Bool) (magnitude : Nat) : Binary64 :=
  ⟨BitVec.ofNat 64 (magnitude % Nat.pow 2 63 + if sign then Nat.pow 2 63 else 0)⟩

def zero : Binary64 :=
  ofSigned false 0

def nan : Binary64 :=
  ofSigned false (2047 * Nat.pow 2 52 + Nat.pow 2 51)

/--
The value `m * 2 ^ q` with a sign, for `m` below `2 ^ 53` and `q` at least
`-1074`: such a value has a pattern of its own, so nothing is rounded.
-/
def ofScaled (sign : Bool) (m : Nat) (q : Int) : Binary64 :=
  if m = 0 then ofSigned sign 0
  else
    let shift := min (52 - m.log2) (q + 1074).toNat
    let widened := m * Nat.pow 2 shift
    let field := (q - shift + 1075).toNat
    if widened < Nat.pow 2 52 then ofSigned sign widened
    else ofSigned sign (field * Nat.pow 2 52 + (widened - Nat.pow 2 52))

def neg (value : Binary64) : Binary64 :=
  ofSigned (!value.negative) value.magnitude

def infinite (sign : Bool) : Binary64 :=
  ofSigned sign (2047 * Nat.pow 2 52)

/-- The fraction `n / d` in units of `2 ^ scale`, as a new fraction. -/
def inUnits (n d : Nat) (scale : Int) : Nat × Nat :=
  (n * Nat.pow 2 (-scale).toNat, d * Nat.pow 2 scale.toNat)

/-- The unit in which a fraction has 53 binary digits, or the least one there is. -/
def unitOf (n d : Nat) : Int :=
  let rough : Int := (n.log2 : Int) - d.log2 - 52
  let (n, d) := inUnits n d rough
  max (-1074) (if Nat.pow 2 52 ≤ n / d then rough else rough - 1)

/-- The nearest integer to a fraction; halves go to the even one. -/
def roundEven (n d : Nat) : Nat :=
  let whole := n / d
  let rest := 2 * (n % d)
  if d < rest ∨ (rest = d ∧ whole % 2 = 1) then whole + 1 else whole

/-- The nearest number to the fraction `n / d`, with a sign; beyond all others lies infinity. -/
def nearest (sign : Bool) (n d : Nat) : Binary64 :=
  if n = 0 then ofSigned sign 0
  else
    let unit := unitOf n d
    let (n, d) := inUnits n d unit
    ofSigned sign (min ((unit + 1074).toNat * Nat.pow 2 52 + roundEven n d) (2047 * Nat.pow 2 52))

/-- The signed significand of a finite value in units of `2 ^ unit`, at most its scale. -/
def countUnits (value : Binary64) (unit : Int) : Int :=
  let count : Int := value.significand * Nat.pow 2 (value.scale - unit).toNat
  if value.negative then -count else count

/-- A sum of nothing is negative only if both sides are. -/
def add (left right : Binary64) : Binary64 :=
  if left.isNaN || right.isNaN then nan
  else if left.isInfinite then
    if right.isInfinite && left.negative != right.negative then nan else left
  else if right.isInfinite then right
  else
    let unit := min left.scale right.scale
    let sum := left.countUnits unit + right.countUnits unit
    if sum = 0 then ofSigned (left.negative && right.negative) 0
    else nearest (decide (sum < 0)) (sum.natAbs * Nat.pow 2 unit.toNat) (Nat.pow 2 (-unit).toNat)

def sub (left right : Binary64) : Binary64 :=
  left.add right.neg

def mul (left right : Binary64) : Binary64 :=
  let sign := left.negative != right.negative
  if left.isNaN || right.isNaN then nan
  else if left.isInfinite || right.isInfinite then
    if left.isZero || right.isZero then nan else infinite sign
  else
    let unit := left.scale + right.scale
    nearest sign (left.significand * right.significand * Nat.pow 2 unit.toNat)
      (Nat.pow 2 (-unit).toNat)

def div (left right : Binary64) : Binary64 :=
  let sign := left.negative != right.negative
  if left.isNaN || right.isNaN then nan
  else if left.isInfinite then if right.isInfinite then nan else infinite sign
  else if right.isInfinite then ofSigned sign 0
  else if right.isZero then if left.isZero then nan else infinite sign
  else
    let unit := left.scale - right.scale
    nearest sign (left.significand * Nat.pow 2 unit.toNat)
      (right.significand * Nat.pow 2 (-unit).toNat)

/--
The remainder of a division whose quotient is cut toward zero.  It is exact,
and it has the sign of the dividend.
-/
def rem (left right : Binary64) : Binary64 :=
  if left.isNaN || right.isNaN || left.isInfinite || right.isZero then nan
  else if right.isInfinite then left
  else
    let common := min left.scale right.scale
    let dividend := left.significand * Nat.pow 2 (left.scale - common).toNat
    let divisor := right.significand * Nat.pow 2 (right.scale - common).toNat
    ofScaled left.negative (dividend % divisor) common

/-- A number on the line that orders all values but NaN; the zeros coincide. -/
def rank (value : Binary64) : Int :=
  if value.negative then -(value.magnitude : Int) else value.magnitude

/-- Equality of values: NaN differs from itself, and the zeros are equal. -/
def equal (left right : Binary64) : Bool :=
  !left.isNaN && !right.isNaN && left.rank == right.rank

def less (left right : Binary64) : Bool :=
  !left.isNaN && !right.isNaN && decide (left.rank < right.rank)

def lessEqual (left right : Binary64) : Bool :=
  !left.isNaN && !right.isNaN && decide (left.rank ≤ right.rank)

def ofWord (word : Word) : Binary64 :=
  nearest (decide (word.toInt < 0)) word.toInt.natAbs 1

def ofNat (number : Nat) : Binary64 :=
  nearest false number 1

/-- The magnitude without its fraction. -/
def wholeMagnitude (value : Binary64) : Nat :=
  value.significand * Nat.pow 2 value.scale.toNat / Nat.pow 2 (-value.scale).toNat

/--
The signed word next to the value toward zero.  Values beyond the range go to
its ends, and NaN goes to zero.
-/
def toWord (value : Binary64) : Word :=
  if value.isNaN then 0
  else if value.negative then
    if Nat.pow 2 63 ≤ value.wholeMagnitude then BitVec.intMin 64
    else BitVec.ofInt 64 (-(value.wholeMagnitude : Int))
  else if Nat.pow 2 63 ≤ value.wholeMagnitude then BitVec.intMax 64
  else BitVec.ofNat 64 value.wholeMagnitude

end Binary64

end ArmBackend
