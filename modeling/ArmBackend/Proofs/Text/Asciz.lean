import ArmBackend.Text.Asciz
import Mathlib.Data.List.TakeWhile

/-!
# What an assembler string says

A reader of assembler strings, which goes up to the quote that closes the string.  From what is
written for a text it reads the bytes of the text, whatever stands behind the closing quote.
-/

namespace ArmBackend.Text

open List

def isOctal (char : Char) : Bool :=
  '0'.toNat ≤ char.toNat && char.toNat ≤ '7'.toNat

/-- The byte that octal digits say. -/
def octalByte (digits : List Char) : UInt8 :=
  .ofNat (digits.foldl (fun value digit => 8 * value + (digit.toNat - 48)) 0)

/-- The byte of a character that has a meaning behind a backslash. -/
def namedByte? : Char → Option UInt8
  | '"' => some 34
  | '\\' => some 92
  | 'n' => some 10
  | 't' => some 9
  | _ => none

/-- The byte that begins behind a backslash, and how many characters say it: up to three octal
digits, or one name. -/
def escape? (text : List Char) : Option (UInt8 × Nat) :=
  match (text.take 3).takeWhile isOctal with
  | [] => (text.head?.bind namedByte?).map (·, 1)
  | digits => some (octalByte digits, digits.length)

/-- The bytes up to the closing quote, and the text behind it. -/
def readString : List Char → Option (List UInt8 × List Char)
  | [] => none
  | char :: rest =>
    if char = '"' then some ([], rest)
    else if char = '\\' then
      (escape? rest).bind fun (byte, count) =>
        (readString (rest.drop count)).map (Prod.map (byte :: ·) id)
    else (readString rest).map (Prod.map (String.utf8EncodeChar char ++ ·) id)
termination_by text => text.length
decreasing_by
  · simp only [length_drop, length_cons]
    omega
  · exact Nat.lt_succ_self _

theorem toNat_ofNat_of_lt {code : Nat} (small : code < 128) : (Char.ofNat code).toNat = code := by
  rw [Char.ofNat, dif_pos (.inl (by omega))]
  rfl

theorem toNat_octalDigit (number : Nat) : (octalDigit number).toNat = 48 + number % 8 :=
  toNat_ofNat_of_lt (by omega)

theorem isOctal_octalDigit (number : Nat) : isOctal (octalDigit number) = true := by
  rw [isOctal, toNat_octalDigit, Bool.and_eq_true, decide_eq_true_eq, decide_eq_true_eq]
  exact ⟨Nat.le_add_right 48 _, Nat.add_le_add_left (Nat.le_of_lt_succ (Nat.mod_lt _ (by decide))) 48⟩

theorem octalByte_octalDigits (byte : UInt8) :
    octalByte [octalDigit (byte.toNat / 64), octalDigit (byte.toNat / 8), octalDigit byte.toNat] =
      byte := by
  have bound := byte.toNat_lt
  have value : 8 * (8 * (byte.toNat / 64 % 8) + byte.toNat / 8 % 8) + byte.toNat % 8 = byte.toNat := by
    omega
  simp [octalByte, toNat_octalDigit, value]

theorem readString_escape (chars : List Char) {rest : List Char} {byte : UInt8}
    (known : escape? (chars ++ rest) = some (byte, chars.length)) :
    readString ('\\' :: (chars ++ rest)) = (readString rest).map (Prod.map (byte :: ·) id) := by
  rw [readString, if_neg (by decide), if_pos rfl, known, Option.bind_some]
  exact congrArg (fun left => (readString left).map _) drop_left

theorem readString_ascizByte (byte : UInt8) (rest : List Char) :
    readString (ascizByte byte ++ rest) = (readString rest).map (Prod.map (byte :: ·) id) := by
  have named (name : Char) {code : UInt8} (means : namedByte? name = some code)
      (letter : isOctal name = false) (same : byte.toNat = code.toNat) :
      readString (['\\', name] ++ rest) = (readString rest).map (Prod.map (byte :: ·) id) := by
    refine readString_escape [name] ?_
    cases UInt8.toNat.inj same
    simp [escape?, letter, means]
  unfold ascizByte
  dsimp only
  split_ifs with quote backslash newline tab visible
  · exact named '"' rfl rfl quote
  · exact named '\\' rfl rfl backslash
  · exact named 'n' rfl rfl newline
  · exact named 't' rfl rfl tab
  · have code : (Char.ofNat byte.toNat).toNat = byte.toNat := toNat_ofNat_of_lt (by omega)
    have plain (char : Char) (differs : byte.toNat ≠ char.toNat) : Char.ofNat byte.toNat ≠ char :=
      fun same => differs (code.symm.trans (congrArg Char.toNat same))
    have itself : String.utf8EncodeChar (Char.ofNat byte.toNat) = [byte] := by
      have small : (Char.ofNat byte.toNat).val.toNat = byte.toNat := code
      simp only [String.utf8EncodeChar, small]
      rw [if_pos (by omega), UInt8.ofNat_toNat]
    rw [singleton_append, readString, if_neg (plain '"' quote), if_neg (plain '\\' backslash), itself]
    rfl
  · refine readString_escape [_, _, _] ?_
    simp [escape?, isOctal_octalDigit, octalByte_octalDigits]

theorem visible_ascizByte (byte : UInt8) :
    ∀ char ∈ ascizByte byte, 0x20 ≤ char.toNat ∧ char.toNat ≤ 0x7e := by
  have digit (number : Nat) : 0x20 ≤ (octalDigit number).toNat ∧ (octalDigit number).toNat ≤ 0x7e := by
    rw [toNat_octalDigit]
    omega
  have pair (char : Char) (shown : 0x20 ≤ char.toNat ∧ char.toNat ≤ 0x7e) :
      ∀ other ∈ ['\\', char], 0x20 ≤ other.toNat ∧ other.toNat ≤ 0x7e := by
    simp only [forall_mem_cons]
    exact ⟨by decide, shown, nofun⟩
  unfold ascizByte
  dsimp only
  split_ifs with _ _ _ _ visible
  · exact pair _ (by decide)
  · exact pair _ (by decide)
  · exact pair _ (by decide)
  · exact pair _ (by decide)
  · rw [forall_mem_singleton, toNat_ofNat_of_lt (by omega)]
    exact visible
  · simp only [forall_mem_cons]
    exact ⟨by decide, digit _, digit _, digit _, nofun⟩

/-- The directive of a text says its bytes and ends at its own closing quote, and it is written in
visible characters only. -/
theorem asciz_denotes (text : String) :
    (∀ behind, readString ((asciz text).toList ++ '"' :: behind) = some (utf8Bytes text, behind)) ∧
      ∀ char ∈ (asciz text).toList, 0x20 ≤ char.toNat ∧ char.toNat ≤ 0x7e := by
  rw [asciz, String.toList_ofList]
  refine ⟨fun behind => ?_, fun char member => ?_⟩
  · induction utf8Bytes text with
    | nil => rw [flatMap_nil, nil_append, readString, if_pos rfl]
    | cons byte bytes ih =>
      rw [flatMap_cons, append_assoc, readString_ascizByte, ih]
      rfl
  · obtain ⟨byte, _, here⟩ := mem_flatMap.mp member
    exact visible_ascizByte byte char here

end ArmBackend.Text
