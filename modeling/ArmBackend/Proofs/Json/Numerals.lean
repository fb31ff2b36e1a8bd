import ArmBackend.Json.Number
import ArmBackend.Json.Token
import Mathlib.Tactic.NormNum
import Mathlib.Tactic.Ring

/-!
# Written numbers are read back

A numeral is well formed if it has digits only, and no needless zero in front.  The
characters of a well-formed numeral are read as that numeral.  The numerals of integers
are well formed, and they denote the integers that have 64 bits.
-/

namespace ArmBackend

open List

open Json

variable {char : Char} {number : Nat}

namespace Numeral

/-- What the grammar of numbers asks for. -/
structure WellFormed (numeral : Numeral) : Prop where
  whole : ∀ char ∈ numeral.whole, char.isDigit = true
  fraction : ∀ char ∈ numeral.fraction, char.isDigit = true
  start : Token.isWhole numeral.whole = true

instance (numeral : Numeral) : Decidable numeral.WellFormed :=
  decidable_of_iff ((numeral.whole.all Char.isDigit && numeral.fraction.all Char.isDigit &&
      Token.isWhole numeral.whole) = true) <| by
    simp only [Bool.and_eq_true, List.all_eq_true, and_assoc]
    exact ⟨fun ⟨whole, fraction, start⟩ => ⟨whole, fraction, start⟩,
      fun formed => ⟨formed.whole, formed.fraction, formed.start⟩⟩

variable (digits : List Char)

theorem digitsValue_eq : Token.digitsValue digits = Nat.ofDigitChars 10 digits 0 := by
  simp [Token.digitsValue, Nat.ofDigitChars, Nat.mul_comm]

theorem digitsValue_toDigits (number : Nat) :
    Token.digitsValue (Nat.toDigits 10 number) = number := by
  rw [digitsValue_eq]
  exact Nat.ofDigitChars_toDigits (by decide) (by decide)

theorem isDigit_toDigits (member : char ∈ Nat.toDigits 10 number) : char.isDigit = true :=
  Nat.isDigit_of_mem_toDigits (by decide) (by decide) member

theorem digitChar_ne_zero : ∀ digit < 10, 0 < digit → Nat.digitChar digit ≠ '0' := by
  decide

theorem head_toDigits (positive : 0 < number) :
    ∃ first rest, Nat.toDigits 10 number = first :: rest ∧ first ≠ '0' := by
  induction number using Nat.strongRecOn with
  | ind number ih =>
    by_cases small : number < 10
    · exact ⟨_, [], Nat.toDigits_of_lt_base small, digitChar_ne_zero number small positive⟩
    · obtain ⟨first, rest, split, ne⟩ := ih (number / 10) (by omega) (by omega)
      rw [Nat.toDigits_of_base_le (by decide) (by omega), split]
      exact ⟨first, _, rfl, ne⟩

theorem isWhole_cons {first : Char} (rest : List Char) (ne : first ≠ '0') :
    Token.isWhole (first :: rest) = true := by
  cases rest <;> simp [Token.isWhole, ne]

theorem isWhole_toDigits (number : Nat) : Token.isWhole (Nat.toDigits 10 number) = true := by
  rcases Nat.eq_zero_or_pos number with rfl | positive
  · rfl
  · obtain ⟨first, rest, split, ne⟩ := head_toDigits positive
    rw [split]
    exact isWhole_cons rest ne

theorem wellFormed_ofInt (number : Int) : (ofInt number).WellFormed where
  whole _ := isDigit_toDigits
  fraction _ member := nomatch member
  start := isWhole_toDigits _

/-! ## The characters of a numeral -/

theorem exponent?_exponentText (exponent : Int) :
    Token.exponent? (exponentText true exponent) = some exponent := by
  have digits : (Nat.toDigits 10 exponent.natAbs).all Char.isDigit = true :=
    all_eq_true.mpr fun _ => isDigit_toDigits
  have some : (Nat.toDigits 10 exponent.natAbs).isEmpty = false := by
    simp [Nat.toDigits_ne_nil]
  by_cases negative : exponent < 0
  · simp only [exponentText, if_pos negative, singleton_append, Token.exponent?, digits, some,
      digitsValue_toDigits, Bool.not_true, Bool.or_self, Bool.false_eq_true, if_false, if_true,
      Option.some.injEq]
    omega
  · simp only [exponentText, if_neg negative, if_true, singleton_append, Token.exponent?,
      digits, some, digitsValue_toDigits, Bool.not_true, Bool.or_self, Bool.false_eq_true, if_false,
      Option.some.injEq]
    omega

/-- The part of a numeral behind its digits. -/
def exponentPart (numeral : Numeral) : List Char :=
  match numeral.exponent with
  | none => []
  | some exponent => 'e' :: exponentText true exponent

variable (numeral : Numeral)

theorem withExponent?_exponentPart :
    Token.withExponent? numeral.negative numeral.whole numeral.fraction numeral.exponentPart =
      some numeral := by
  obtain ⟨negative, whole, fraction, exponent⟩ := numeral
  cases exponent with
  | none => rfl
  | some exponent => simp [exponentPart, Token.withExponent?, exponent?_exponentText]

theorem takeWhile_exponentPart : numeral.exponentPart.takeWhile Char.isDigit = [] := by
  unfold exponentPart
  cases numeral.exponent <;> rfl

theorem dropWhile_exponentPart :
    numeral.exponentPart.dropWhile Char.isDigit = numeral.exponentPart := by
  unfold exponentPart
  cases numeral.exponent <;> rfl

/-- The part of a numeral behind its sign. -/
def unsignedText (numeral : Numeral) : List Char :=
  numeral.whole ++ ((if numeral.fraction.isEmpty then [] else '.' :: numeral.fraction) ++
    numeral.exponentPart)

theorem text_eq :
    numeral.text true = (if numeral.negative then ['-'] else []) ++ numeral.unsignedText := by
  simp only [text, unsignedText, append_assoc]
  rfl

namespace WellFormed

variable {numeral : Numeral} (formed : numeral.WellFormed)
include formed

theorem unsigned?_unsignedText :
    Token.unsigned? numeral.negative numeral.unsignedText = some numeral := by
  unfold Token.unsigned? unsignedText
  rw [takeWhile_append_of_pos formed.whole, dropWhile_append_of_pos formed.whole]
  by_cases none : numeral.fraction.isEmpty = true
  · have noFraction : numeral.fraction = [] := List.isEmpty_iff.mp none
    have read := withExponent?_exponentPart numeral
    rw [noFraction] at read
    simp only [none, if_true, nil_append, takeWhile_exponentPart, dropWhile_exponentPart,
      append_nil, formed.start, Bool.not_true, Bool.false_eq_true, if_false]
    -- the exponent starts with no point
    split
    · rename_i rest points
      unfold exponentPart at points
      cases exponent : numeral.exponent <;> simp [exponent] at points
    · exact read
  · have point : Char.isDigit '.' = false := by decide
    simp only [none, if_false, cons_append, takeWhile_cons, dropWhile_cons, point,
      append_nil, formed.start, Bool.not_true, Bool.false_eq_true,
      takeWhile_append_of_pos formed.fraction, dropWhile_append_of_pos formed.fraction,
      takeWhile_exponentPart, dropWhile_exponentPart]
    exact withExponent?_exponentPart numeral

theorem numeral?_text : Token.numeral? (numeral.text true) = some numeral := by
  rw [text_eq]
  have read := formed.unsigned?_unsignedText
  cases negative : numeral.negative with
  | true => rwa [negative] at read
  | false =>
    rw [negative] at read
    simp only [Bool.false_eq_true, if_false, nil_append]
    unfold Token.numeral?
    split
    · -- a minus would be the first digit
      rename_i rest split
      unfold unsignedText at split
      have start := formed.start
      cases whole : numeral.whole with
      | nil => rw [whole] at start; cases start
      | cons digit more =>
        rw [whole] at split
        have digit := formed.whole digit (by rw [whole]; exact mem_cons_self)
        cases (List.cons.inj split).1
        cases digit
    · exact read

theorem isNumberChar_text (member : char ∈ numeral.text true) : Mode.isNumberChar char = true := by
  have digits : ∀ {digit : Char}, digit.isDigit = true → Mode.isNumberChar digit = true := by
    intro digit holds
    simp [Mode.isNumberChar, holds]
  simp only [text_eq, unsignedText, mem_append] at member
  rcases member with sign | whole | fraction | exponent
  · cases negative : numeral.negative <;> simp_all [Mode.isNumberChar]
  · exact digits (formed.whole char whole)
  · by_cases none : numeral.fraction.isEmpty = true
    · simp [none] at fraction
    · simp only [none, if_false, mem_cons, Bool.false_eq_true] at fraction
      rcases fraction with rfl | member
      · rfl
      · exact digits (formed.fraction char member)
  · unfold exponentPart at exponent
    cases power : numeral.exponent with
    | none => simp [power] at exponent
    | some power =>
      simp_all only [mem_cons, exponentText, mem_append]
      rcases exponent with rfl | sign | digit
      · rfl
      · split at sign <;> simp_all [Mode.isNumberChar]
      · exact digits (isDigit_toDigits digit)

/-- A number starts with a digit or with a minus. -/
theorem text_start : ∃ first rest, numeral.text true = first :: rest ∧
    (first.isDigit || first == '-') = true := by
  rw [text_eq]
  cases negative : numeral.negative with
  | true => exact ⟨'-', _, rfl, rfl⟩
  | false =>
    have start := formed.start
    cases whole : numeral.whole with
    | nil => rw [whole] at start; cases start
    | cons digit more =>
      have isDigit := formed.whole digit (by rw [whole]; exact mem_cons_self)
      refine ⟨digit, more ++ _, by rw [unsignedText, whole]; rfl, ?_⟩
      rw [isDigit, Bool.true_or]

end WellFormed

/-! ## Integers -/

theorem le_ofDigitChars (start : Nat) : start ≤ Nat.ofDigitChars 10 digits start := by
  induction digits generalizing start with
  | nil => exact Nat.le_refl _
  | cons digit rest ih =>
    have later := ih (10 * start + (digit.toNat - '0'.toNat))
    rw [Nat.ofDigitChars_cons]
    omega

/-- Digits whose number fits a word are all taken. -/
theorem wholePart_eq (start : Nat) (fits : Nat.ofDigitChars 10 digits start < Nat.pow 2 64) :
    wholePart digits start 0 = (Nat.ofDigitChars 10 digits start, 0) := by
  induction digits generalizing start with
  | nil => rfl
  | cons digit rest ih =>
    rw [Nat.ofDigitChars_cons, Nat.mul_comm 10 start] at fits ⊢
    have bound := le_ofDigitChars rest (start * 10 + (digit.toNat - '0'.toNat))
    rw [wholePart, if_pos ⟨rfl, Nat.lt_of_le_of_lt bound fits⟩]
    exact ih _ fits

theorem wholePart_toDigits (fits : number < Nat.pow 2 64) :
    wholePart (Nat.toDigits 10 number) 0 0 = (number, 0) := by
  have value : Nat.ofDigitChars 10 (Nat.toDigits 10 number) 0 = number :=
    Nat.ofDigitChars_toDigits (by decide) (by decide)
  rw [wholePart_eq _ _ (value.symm ▸ fits), value]

theorem number?_ofNat (fits : number < Nat.pow 2 64) :
    (ofInt number).number? = some (.natural (BitVec.ofNat 64 number)) := by
  have positive : ¬ (number : Int) < 0 := by omega
  simp [number?, ofInt, wholePart_toDigits fits, positive]

theorem number?_natural (word : Word) : (ofInt word.toNat).number? = some (.natural word) := by
  rw [number?_ofNat word.isLt, BitVec.ofNat_toNat, BitVec.setWidth_eq]

theorem number?_negative {word : Word} (negative : word.toInt < 0) :
    (ofInt word.toInt).number? = some (.negative word) := by
  have least : -(2 ^ 63 : Nat) ≤ word.toInt := word.le_toInt
  obtain ⟨number, split⟩ : ∃ number : Nat, word.toInt = -(number : Int) :=
    ⟨word.toInt.natAbs, by omega⟩
  have positive : 0 < number := by omega
  have fits : number ≤ Nat.pow 2 63 := by
    change number ≤ 2 ^ 63
    omega
  have below : number < Nat.pow 2 64 := Nat.lt_of_le_of_lt fits (by decide)
  have same : BitVec.ofInt 64 (-(number : Int)) = word := split ▸ word.ofInt_toInt
  have minus : -(number : Int) < 0 := by omega
  simp [split, number?, ofInt, wholePart_toDigits below, positive, fits, same, -Nat.pow_eq]

end Numeral

end ArmBackend
