import ArmBackend.Binary64

/-!
# Shortest decimals

The fewest decimal digits that still denote one double-precision number and no
other.  A decimal denotes the number whose rounding interval holds it; the
search tries one digit, two digits and so on, and of each length only the two
neighbours of the exact value.
-/

namespace ArmBackend

/-- The number `digits * 10 ^ exponent`. -/
structure Decimal where
  digits : Nat
  exponent : Int
deriving DecidableEq

namespace Decimal

def length (number : Nat) : Nat :=
  (Nat.toDigits 10 number).length

/-- The power of ten of the first digit. -/
def leading (decimal : Decimal) : Int :=
  decimal.exponent + length decimal.digits - 1

/-- Compare `a * 10 ^ i` with `n * 2 ^ j` exactly. -/
def compareScaled (a : Nat) (i : Int) (n : Nat) (j : Int) : Ordering :=
  compare (a * Nat.pow 10 i.toNat * Nat.pow 2 (-j).toNat)
    (n * Nat.pow 2 j.toNat * Nat.pow 10 (-i).toNat)

/-- Move the zeros at the end of the digits into the exponent. -/
def strip (decimal : Decimal) : Decimal :=
  if decimal.digits ≠ 0 ∧ decimal.digits % 10 = 0 then
    strip ⟨decimal.digits / 10, decimal.exponent + 1⟩
  else decimal
termination_by decimal.digits
decreasing_by omega

/-- What to do with two decimals that are equally near. -/
inductive Tie where
  | upper
  | even
deriving DecidableEq

end Decimal

namespace Binary64

/-- At a power of two the next smaller number is only half as far away. -/
def narrowBelow (value : Binary64) : Bool :=
  value.fractionField == 0 && decide (1 < value.exponentField)

/--
The decimal lies among the reals that round to the magnitude of this finite
value; the ends of that interval belong to the even significand.
-/
def encloses (value : Binary64) (decimal : Decimal) : Bool :=
  let low := 4 * value.significand - if value.narrowBelow then 1 else 2
  let high := 4 * value.significand + 2
  let closed := value.significand % 2 == 0
  let below := Decimal.compareScaled decimal.digits decimal.exponent low (value.scale - 2)
  let above := Decimal.compareScaled decimal.digits decimal.exponent high (value.scale - 2)
  (below == .gt || (closed && below == .eq)) && (above == .lt || (closed && above == .eq))

/-- The magnitude of a finite value divided by `10 ^ step` and cut to an integer. -/
def gridFloor (value : Binary64) (step : Int) : Nat :=
  value.significand * Nat.pow 2 value.scale.toNat * Nat.pow 10 (-step).toNat /
    (Nat.pow 2 (-value.scale).toNat * Nat.pow 10 step.toNat)

def leadingExponent (value : Binary64) : Int :=
  Decimal.length (value.gridFloor (-400)) - 401

/-- The better of the two neighbours on the grid `10 ^ step` that denote the value. -/
def onGrid (value : Binary64) (tie : Decimal.Tie) (step : Int) : Option Decimal :=
  let lower := value.gridFloor step
  let upper := lower + 1
  match value.encloses ⟨lower, step⟩, value.encloses ⟨upper, step⟩ with
  | false, false => none
  | true, false => some ⟨lower, step⟩
  | false, true => some ⟨upper, step⟩
  | true, true =>
    match Decimal.compareScaled (lower + upper) step (2 * value.significand) value.scale with
    | .lt => some ⟨upper, step⟩
    | .gt => some ⟨lower, step⟩
    | .eq =>
      match tie with
      | .upper => some ⟨upper, step⟩
      | .even => some ⟨if lower % 2 = 0 then lower else upper, step⟩

/-- Try the grids from `step` downward, `budget` of them. -/
def shortestFrom (value : Binary64) (tie : Decimal.Tie) : (budget : Nat) → (step : Int) → Decimal
  | 0, step => ⟨value.gridFloor step, step⟩
  | budget + 1, step =>
    match value.onGrid tie step with
    | some decimal => decimal
    | none => shortestFrom value tie budget (step - 1)

/-- The shortest decimal of a finite magnitude; seventeen digits always suffice. -/
def shortest (value : Binary64) (tie : Decimal.Tie) : Decimal :=
  if value.isZero then ⟨0, 0⟩
  else (value.shortestFrom tie 17 value.leadingExponent).strip

end Binary64

end ArmBackend
