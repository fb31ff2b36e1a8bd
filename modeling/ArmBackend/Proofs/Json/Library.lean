import ArmBackend.Proofs.Json.Records

/-!
# Libraries that read back what they print

What is relied on in a library for documents: that it reads a document back from what it
prints for it, numbers included.  A library with the syntax of JSON is faithful in this
sense if its numerals denote the numbers that they are written for.
-/

namespace ArmBackend

namespace Json

open List

/-- Documents are read back from their texts if they nest no deeper than a reader follows. -/
def Library.Faithful (library : Library) : Prop :=
  ∀ document : Document, Written Stands document → document.depth ≤ 127 →
    library.parse? (library.print document) = some document

/-! ## Values in the place of numbers -/

section Replace

variable {ν μ : Type} {kind : ν → Prop} {other : μ → Prop} {place : ν → Json μ}
  {back : μ → Json ν} {json : Json ν}

theorem replace_array (place : ν → Json μ) (items : List (Json ν)) :
    (array items).replace place = array (items.map (replace place)) := by
  rw [replace, array.injEq]
  induction items with
  | nil => rfl
  | cons item items ih => rw [replaceItems, ih, map_cons]

theorem replace_ofMembers (place : ν → Json μ) (members : List (String × Json ν)) :
    (ofMembers members).replace place =
      ofMembers (members.map fun member => (member.1, member.2.replace place)) := by
  rw [ofMembers_eq, ofMembers_eq, replace, object.injEq]
  induction members with
  | nil => rfl
  | cons member members ih => rw [keyed_cons, replaceMembers, ih, map_cons, keyed_cons]

theorem Written.replace (written : Written kind json)
    (each : ∀ figure, kind figure → Written other (place figure)) :
    Written other (json.replace place) := by
  induction written with
  | null => exact .null
  | bool truth => exact .bool truth
  | number holds => exact each _ holds
  | text content => exact .text content
  | array _ ih =>
    rw [replace_array]
    exact .array (forall_mem_map.mpr ih)
  | members _ ih =>
    rw [replace_ofMembers]
    exact .members (forall_mem_map.mpr ih)

theorem Written.replace_replace (written : Written kind json)
    (each : ∀ figure, kind figure → (place figure).replace back = .number figure) :
    (json.replace place).replace back = json := by
  induction written with
  | null | bool | text => rfl
  | number holds => exact each _ holds
  | array _ ih =>
    rw [replace_array, replace_array, map_map]
    exact congrArg Json.array ((map_congr_left ih).trans (map_id' _))
  | members _ ih =>
    rw [replace_ofMembers, replace_ofMembers, map_map]
    refine congrArg ofMembers ((map_congr_left fun member inside => ?_).trans (map_id' _))
    exact Prod.ext rfl (ih member inside)

end Replace

namespace NumberFormat

variable {format : NumberFormat}

/-- The number has a numeral that denotes it. -/
def Keeps (format : NumberFormat) (figure : Option Number) : Prop :=
  ∃ numeral, format.write figure = .number numeral ∧ numeral.WellFormed ∧
    format.read? numeral = figure

theorem faithful_library (keeps : ∀ figure, Stands figure → format.Keeps figure) :
    format.library.Faithful := by
  intro document written _
  have formed : Written Numeral.WellFormed (document.replace format.write) := by
    refine written.replace fun figure stands => ?_
    obtain ⟨numeral, same, formed, -⟩ := keeps figure stands
    rw [same]
    exact .number formed
  have restored : (document.replace format.write).replace
      (fun numeral => .number (format.read? numeral)) = document := by
    refine written.replace_replace fun figure stands => ?_
    obtain ⟨numeral, same, -, read⟩ := keeps figure stands
    rw [same, replace, read]
  change (parse? (document.replace format.write).text).map _ = _
  rw [parse?_text formed, Option.map_some, restored]

end NumberFormat

/-! ## A faithful library -/

/--
A value that its shortest numeral denotes has that numeral.  Any other is given by its
pattern, in a numeral that is too large for all values.
-/
def NumberFormat.restoring : NumberFormat where
  real value :=
    let short := realLayout.numeral value
    if short.WellFormed ∧ short.exponent ≠ some 2000 ∧ short.number? = some (.real value) then short
    else ⟨false, Nat.toDigits 10 value.bits.toNat, [], some 2000⟩
  read? numeral :=
    if numeral.exponent = some 2000 then
      some (.real ⟨BitVec.ofNat 64 (Token.digitsValue numeral.whole)⟩)
    else numeral.number?

namespace Library

def restoring : Library :=
  NumberFormat.restoring.library

theorem faithful_restoring : restoring.Faithful := by
  refine NumberFormat.faithful_library fun figure stands => ?_
  match figure, stands with
  | some (.natural word), _ =>
    exact ⟨_, rfl, Numeral.wellFormed_ofInt _, Numeral.number?_natural word⟩
  | some (.negative word), negative =>
    exact ⟨_, rfl, Numeral.wellFormed_ofInt _, Numeral.number?_negative negative⟩
  | some (.real value), finite =>
    refine ⟨_, if_neg (Bool.eq_false_iff.mp finite), ?_⟩
    simp only [NumberFormat.restoring]
    split_ifs with short marked plain
    · exact absurd marked short.2.1
    · exact ⟨short.1, short.2.2⟩
    · refine ⟨⟨fun _ => Numeral.isDigit_toDigits, fun _ member => (nomatch member),
        Numeral.isWhole_toDigits _⟩, ?_⟩
      rw [Numeral.digitsValue_toDigits, BitVec.ofNat_toNat, BitVec.setWidth_eq]
    · exact absurd rfl plain

end Library

end Json

end ArmBackend
