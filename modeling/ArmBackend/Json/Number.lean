import ArmBackend.Json.Basic

/-!
# What numbers mean

A numeral without fraction and exponent is an integer while it fits a 64-bit
word, signed if it is negative.  Every other numeral is a double-precision
number: the longest run of leading digits that fits 64 bits, rounded, and then
multiplied or divided by a power of ten, which rounds once more.
-/

namespace ArmBackend

namespace Numeral

def digitValue (digit : Char) : Nat :=
  digit.toNat - 48

/-- The digits before the point that fit a word, and how many follow them. -/
def wholePart : List Char → Nat → Nat → Nat × Nat
  | [], significand, skipped => (significand, skipped)
  | digit :: rest, significand, skipped =>
    if skipped = 0 ∧ significand * 10 + digitValue digit < Nat.pow 2 64 then
      wholePart rest (significand * 10 + digitValue digit) 0
    else wholePart rest significand (skipped + 1)

/-- Append digits after the point while they fit a word; each lowers the power of ten. -/
def fractionPart : List Char → Nat → Int → Nat × Int
  | [], significand, power => (significand, power)
  | digit :: rest, significand, power =>
    if significand * 10 + digitValue digit < Nat.pow 2 64 then
      fractionPart rest (significand * 10 + digitValue digit) (power - 1)
    else (significand, power)

/-- The nearest number to a power of ten, up to the 308th. -/
def powerOfTen (power : Nat) : Binary64 :=
  .nearest false (Nat.pow 10 power) 1

/-- Divide by a power of ten, in steps that have a number of their own. -/
def scaleDown (value : Binary64) (power : Nat) : Binary64 :=
  if power ≤ 308 then value.div (powerOfTen power)
  else if value.isZero then value
  else scaleDown (value.div (powerOfTen 308)) (power - 308)
termination_by power
decreasing_by omega

/-- Scale by a power of ten; a result beyond all numbers is refused. -/
def scaleBy (value : Binary64) (power : Int) : Option Binary64 :=
  if power < 0 then some (scaleDown value (-power).toNat)
  else if power ≤ 308 then
    let scaled := value.mul (powerOfTen power.toNat)
    if scaled.isInfinite then none else some scaled
  else if value.isZero then some value
  else none

/-- Exponents beyond 31 bits are not added up: they leave zero or overflow. -/
def realMagnitude (significand : Nat) (power : Int) : Option Int → Option Binary64
  | none => scaleBy (.ofNat significand) power
  | some exponent =>
    if Nat.pow 2 31 ≤ exponent.natAbs then
      if 0 < significand ∧ 0 < exponent then none else some .zero
    else scaleBy (.ofNat significand) (power + exponent)

def signed (negative : Bool) (value : Binary64) : Binary64 :=
  if negative then value.neg else value

/-- The number that a numeral denotes, if it is in range. -/
def number? (numeral : Numeral) : Option Number :=
  let (significand, skipped) := wholePart numeral.whole 0 0
  if numeral.fraction.isEmpty ∧ numeral.exponent.isNone ∧ skipped = 0 then
    if !numeral.negative then some (.natural (BitVec.ofNat 64 significand))
    else if 0 < significand ∧ significand ≤ Nat.pow 2 63 then
      some (.negative (BitVec.ofInt 64 (-(significand : Int))))
    else some (.real (signed true (.ofNat significand)))
  else
    let (significand, power) := fractionPart numeral.fraction significand skipped
    (realMagnitude significand power numeral.exponent).map fun value =>
      .real (signed numeral.negative value)

end Numeral

end ArmBackend
