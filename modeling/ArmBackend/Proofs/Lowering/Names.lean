import ArmBackend.Ir.OfTree
import ArmBackend.Proofs.Ir.Semantics

/-!
# Issued names

Numbers have different decimal texts, so temporaries, labels and string labels of
different numbers differ.  A context is extended when its counters have not gone
back and its strings have kept their ids.
-/

namespace ArmBackend.Ir

open List

variable {left right : Nat}

theorem toString_injective (same : toString left = toString right) :
    left = right := by
  have texts : Nat.repr left = Nat.repr right := same
  have digits : Nat.toDigits 10 left = Nat.toDigits 10 right := by
    simpa [Nat.repr, String.ofList_inj] using texts
  rw [← Nat.ofDigitChars_toDigits (n := left) (by decide : 1 < 10) (by decide), digits,
    Nat.ofDigitChars_toDigits (by decide) (by decide)]

/-- The name of a temporary. -/
def tempName (number : Nat) : String :=
  "t" ++ toString number

/-- The name of an issued label. -/
def labelName (number : Nat) : String :=
  "L" ++ toString number

theorem append_toString_injective (start : String)
    (same : start ++ toString left = start ++ toString right) : left = right :=
  toString_injective (String.append_right_inj start |>.mp same)

theorem tempName_injective (same : tempName left = tempName right) :
    left = right :=
  append_toString_injective "t" same

theorem labelName_injective (same : labelName left = labelName right) :
    left = right :=
  append_toString_injective "L" same

namespace StringTable

variable (table : StringTable)

/-- A literal stands at the id that it was given. -/
theorem get?_intern (literal : String) :
    (table.intern literal).1.get? (table.intern literal).2 = some literal := by
  unfold intern get?
  split
  · next id found =>
      rw [table.agrees] at found
      obtain ⟨inside, same, _⟩ := findIdx?_eq_some_iff_getElem.mp found
      simp only [getElem?_eq_getElem inside]
      simpa using same
  · simp

/-- Literals keep their ids. -/
theorem prefix_intern (literal : String) : table.entries <+: (table.intern literal).1.entries := by
  unfold intern
  split
  · exact prefix_refl _
  · exact prefix_append _ _

theorem get?_of_prefix {before after : StringTable} (kept : before.entries <+: after.entries)
    {id : Nat} {literal : String} (found : before.get? id = some literal) :
    after.get? id = some literal := by
  obtain ⟨more, same⟩ := kept
  obtain ⟨inside, _⟩ := List.getElem?_eq_some_iff.mp found
  unfold get?
  rw [← same, getElem?_append_left inside]
  exact found

/-- Literals are interned one after the other; each gets its id. -/
def internAll (table : StringTable) : List String → StringTable × List Nat
  | [] => (table, [])
  | literal :: rest =>
    let first := table.intern literal
    let others := internAll first.1 rest
    (others.1, first.2 :: others.2)

theorem internAll_append (first second : List String) :
    (table.internAll (first ++ second)).1 =
      ((table.internAll first).1.internAll second).1 := by
  induction first generalizing table with
  | nil => rfl
  | cons literal rest ih => exact ih (table.intern literal).1

theorem prefix_internAll (literals : List String) :
    table.entries <+: (table.internAll literals).1.entries := by
  induction literals generalizing table with
  | nil => exact prefix_refl _
  | cons literal rest ih => exact (table.prefix_intern literal).trans (ih _)

end StringTable

/-- The counters have not gone back, and strings have kept their ids. -/
structure Context.Extends (before after : Context) : Prop where
  temps : before.temps ≤ after.temps
  labels : before.labels ≤ after.labels
  strings : before.strings.entries <+: after.strings.entries

namespace Context.Extends

variable (context : Context)

theorem refl : context.Extends context :=
  ⟨Nat.le_refl _, Nat.le_refl _, prefix_refl _⟩

theorem trans {first second third : Context} (one : first.Extends second)
    (two : second.Extends third) : first.Extends third :=
  ⟨Nat.le_trans one.temps two.temps, Nat.le_trans one.labels two.labels,
    one.strings.trans two.strings⟩

theorem newTemp (type : DataType) : context.Extends (context.newTemp type).2 :=
  ⟨Nat.le_succ _, Nat.le_refl _, prefix_refl _⟩

theorem intern (literal : String) : context.Extends (context.intern literal).2 :=
  ⟨Nat.le_refl _, Nat.le_refl _, context.strings.prefix_intern literal⟩

end Context.Extends

end ArmBackend.Ir
