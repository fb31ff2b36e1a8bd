import ArmBackend.Decimal.Shortest

/-!
# Written numbers

A numeral is a number as it stands in a text: sign, digits before and after the
point, and power of ten.  A `DecimalLayout` decides how a decimal becomes a
numeral.
-/

namespace ArmBackend

/-- A number as it is written; an empty fraction has no point. -/
structure Numeral where
  negative : Bool
  whole : List Char
  fraction : List Char
  exponent : Option Int
deriving DecidableEq

namespace Numeral

def ofInt (number : Int) : Numeral :=
  ⟨number < 0, Nat.toDigits 10 number.natAbs, [], none⟩

/-- The digits of an exponent with its sign; `plus` asks for the sign of a positive one. -/
def exponentText (plus : Bool) (exponent : Int) : List Char :=
  (if exponent < 0 then ['-'] else if plus then ['+'] else []) ++
    Nat.toDigits 10 exponent.natAbs

def text (plus : Bool) (numeral : Numeral) : List Char :=
  (if numeral.negative then ['-'] else []) ++ numeral.whole ++
    (if numeral.fraction.isEmpty then [] else '.' :: numeral.fraction) ++
    match numeral.exponent with
    | none => []
    | some exponent => 'e' :: exponentText plus exponent

end Numeral

/--
How finite numbers are written.  A number whose first digit stands at a power of
ten from `plainFrom` up to but not including `plainBelow` has no exponent and at
least one digit after the point.
-/
structure DecimalLayout where
  plainFrom : Int
  plainBelow : Int
  tie : Decimal.Tie

namespace DecimalLayout

def positional (negative : Bool) (decimal : Decimal) : Numeral :=
  let digits := Nat.toDigits 10 decimal.digits
  let leading := decimal.leading
  if 0 ≤ decimal.exponent then
    ⟨negative, digits ++ List.replicate decimal.exponent.toNat '0', ['0'], none⟩
  else if 0 ≤ leading then
    ⟨negative, digits.take (leading + 1).toNat, digits.drop (leading + 1).toNat, none⟩
  else
    ⟨negative, ['0'], List.replicate (-leading - 1).toNat '0' ++ digits, none⟩

def scientific (negative : Bool) (decimal : Decimal) : Numeral :=
  let digits := Nat.toDigits 10 decimal.digits
  ⟨negative, digits.take 1, digits.drop 1, some decimal.leading⟩

def numeral (layout : DecimalLayout) (value : Binary64) : Numeral :=
  let decimal := value.shortest layout.tie
  if value.isZero || (decide (layout.plainFrom ≤ decimal.leading) &&
      decide (decimal.leading < layout.plainBelow)) then
    positional value.negative decimal
  else
    scientific value.negative decimal

end DecimalLayout

end ArmBackend
