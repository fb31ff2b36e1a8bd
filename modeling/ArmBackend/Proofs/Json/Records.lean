import ArmBackend.Input.Reader
import ArmBackend.Proofs.Json.Text
import Mathlib.Data.List.Forall2

/-!
# Written fields are read back

How deep a document nests, and what the decoders of fields give for what the encoders
write: all fields of a record that has distinct names, integers in range, texts, names of
alternatives and values that may be absent.  All that is written has texts with characters,
integers of 64 bits and finite reals.
-/

namespace ArmBackend

def Binary64.Finite (value : Binary64) : Prop :=
  (value.isNaN || value.isInfinite) = false

namespace Json

open List

mutual

/-- How many arrays and objects are open at once. -/
def depth : Document → Nat
  | array items => depthOfItems items + 1
  | object members => depthOfMembers members + 1
  | _ => 0

def depthOfItems : List Document → Nat
  | [] => 0
  | item :: rest => max item.depth (depthOfItems rest)

def depthOfMembers : List (Option String × Document) → Nat
  | [] => 0
  | (_, value) :: rest => max value.depth (depthOfMembers rest)

end

variable {value : Document} {items : List Document} {levels : Nat} {name : String} {α : Type}

theorem depthOfItems_le : depthOfItems items ≤ levels ↔ ∀ item ∈ items, item.depth ≤ levels := by
  induction items with
  | nil => simp [depthOfItems]
  | cons item items ih => simp [depthOfItems, ih]

theorem depthOfMembers_le {members : List (String × Document)} :
    depthOfMembers (keyed members) ≤ levels ↔ ∀ member ∈ members, member.2.depth ≤ levels := by
  induction members with
  | nil => simp [keyed, depthOfMembers]
  | cons member members ih =>
    rw [forall_mem_cons, ← ih]
    exact Nat.max_le

theorem depth_array_le :
    (array items).depth ≤ levels ↔
      ∃ lower, levels = lower + 1 ∧ ∀ item ∈ items, item.depth ≤ lower := by
  rw [depth]
  constructor
  · intro bound
    exact ⟨levels - 1, by omega, depthOfItems_le.mp (by omega)⟩
  · rintro ⟨lower, rfl, fits⟩
    exact Nat.succ_le_succ (depthOfItems_le.mpr fits)

theorem depth_ofMembers_le {members : List (String × Document)} :
    (ofMembers members).depth ≤ levels ↔
      ∃ lower, levels = lower + 1 ∧ ∀ member ∈ members, member.2.depth ≤ lower := by
  change depthOfMembers (keyed members) + 1 ≤ levels ↔ _
  constructor
  · intro bound
    exact ⟨levels - 1, by omega, depthOfMembers_le.mp (by omega)⟩
  · rintro ⟨lower, rfl, fits⟩
    exact Nat.succ_le_succ (depthOfMembers_le.mpr fits)

/-! ## Records -/

theorem filter_keyed_eq_nil {members : List (String × Document)}
    (absent : name ∉ members.map Prod.fst) :
    (keyed members).filter (fun member => member.1 == some name) = [] := by
  rw [filter_eq_nil_iff]
  intro member inside
  obtain ⟨source, mem, rfl⟩ := mem_map.mp inside
  have other : source.1 ≠ name := fun same => absent (same ▸ mem_map_of_mem mem)
  simpa using other

theorem filter_keyed {members : List (String × Document)} (distinct : (members.map Prod.fst).Nodup)
    (member : (name, value) ∈ members) :
    (keyed members).filter (fun member => member.1 == some name) = [(some name, value)] := by
  induction members with
  | nil => cases member
  | cons first members ih =>
    obtain ⟨absent, later⟩ := nodup_cons.mp distinct
    change ((some first.1, first.2) :: keyed members).filter _ = _
    rcases mem_cons.mp member with rfl | inside
    · rw [filter_cons_of_pos (by simp), filter_keyed_eq_nil absent]
    · have other : first.1 ≠ name :=
        fun same => absent (same ▸ mem_map_of_mem (f := Prod.fst) inside)
      rw [filter_cons_of_neg (by simpa using other)]
      exact ih later inside

theorem slots?_ofMembers {members : List (String × Document)} {names : List String}
    (same : members.map Prod.fst = names) (distinct : names.Nodup) :
    slots? names (ofMembers members) = some (members.map fun member => .given member.2) := by
  subst same
  have named : (keyed members).all (fun member => member.1.isSome) = true := by
    simp [keyed]
  change (if (keyed members).all (fun member => member.1.isSome) then _ else none) = _
  rw [if_pos named]
  have found : ∀ part : List (String × Document), part ⊆ members →
      (part.map Prod.fst).mapM (member? (keyed members)) =
        some (part.map fun member => .given member.2) := by
    intro part inside
    induction part with
    | nil => rfl
    | cons member part ih =>
      obtain ⟨here, later⟩ := cons_subset.mp inside
      simp [member?, filter_keyed distinct here, ih later]
  exact found members fun _ => id

/-! ## Fields -/

@[simp]
theorem required_given (decode : Document → Option α) (json : Document) :
    Slot.required decode (.given json) = decode json :=
  rfl

@[simp]
theorem defaulted_given (default : α) (decode : Document → Option α) (json : Document) :
    Slot.defaulted default decode (.given json) = decode json :=
  rfl

/-- What is there is not written as null. -/
theorem nullable_some {decode : Document → Option α} {json : Document} {value : α}
    (solid : json ≠ .null) (reads : decode json = some value) :
    Slot.nullable decode (.given json) = some (some value) := by
  cases json with
  | null => exact absurd rfl solid
  | _ => exact congrArg (Option.map some) reads

@[simp]
theorem text?_ofText (text : String) : text? (ofText text) = some text :=
  rfl

@[simp]
theorem choice?_ofText (find : String → Option α) (levels : Nat) (name : String) :
    choice? find levels (ofText name) = find name := by
  cases levels <;> rfl

variable {number : Nat}

theorem natBelow?_ofNat {limit : Nat} (small : number < limit)
    (word : limit ≤ Nat.pow 2 64) : natBelow? limit (ofNat number) = some number := by
  have value : (BitVec.ofNat 64 number).toNat = number :=
    Nat.mod_eq_of_lt (Nat.lt_of_lt_of_le small word)
  simp only [natBelow?, ofNat, value, small, if_true]

/-- Every signed word is read back. -/
@[simp]
theorem word?_ofWord (word : Word) : word? (ofWord word) = some word := by
  unfold ofWord
  split
  · rfl
  · rename_i sign
    have small : word.toNat < Nat.pow 2 63 := by
      rw [BitVec.toInt_neg_iff] at sign
      change word.toNat < 2 ^ 63
      omega
    simp only [word?, small, if_true]

@[simp]
theorem real?_ofReal (value : Binary64) : real? (ofReal value) = some value :=
  rfl

theorem count32?_ofNat (small : number < Nat.pow 2 32) :
    count32? (ofNat number) = some number :=
  natBelow?_ofNat small (by decide)

theorem count64?_ofNat (small : number < Nat.pow 2 64) :
    count64? (ofNat number) = some number :=
  natBelow?_ofNat small (Nat.le_refl _)

/-! ## Documents -/

/-- The numbers there are; a negative one is below zero, and a real one is finite. -/
def Stands : Option Number → Prop
  | none => False
  | some (.natural _) => True
  | some (.negative word) => word.toInt < 0
  | some (.real value) => value.Finite

@[simp]
theorem written_ofText (text : String) : Written Stands (ofText text) :=
  .text text

@[simp]
theorem written_ofNat (number : Nat) : Written Stands (ofNat number) :=
  .number trivial

theorem written_ofWord (word : Word) : Written Stands (ofWord word) := by
  refine .number ?_
  split
  · assumption
  · trivial

/-- The document can be written, and the decoder gives the value from it wherever as many levels may
be opened as it has. -/
structure Decodes (read : Nat → Document → Option α) (json : Document) (value : α) : Prop where
  written : Written Stands json
  reads : ∀ levels, json.depth ≤ levels → read levels json = some value

namespace Decodes

variable {read : Nat → Document → Option α} {readAll : Nat → Document → Option (List α)}

theorem members {members : List (String × Document)} {value : α}
    (written : ∀ member ∈ members, Written Stands member.2)
    (reads : ∀ lower, (∀ member ∈ members, member.2.depth ≤ lower) →
      read (lower + 1) (ofMembers members) = some value) :
    Decodes read (ofMembers members) value := by
  refine ⟨.members written, fun levels room => ?_⟩
  obtain ⟨lower, rfl, each⟩ := depth_ofMembers_le.mp room
  exact reads lower each

variable {values : List α}

theorem list (opens : ∀ lower json, readAll (lower + 1) json = items? (read lower) json)
    (each : Forall₂ (Decodes read) items values) : Decodes readAll (array items) values := by
  have written : ∀ item ∈ items, Written Stands item := by
    induction each with
    | nil => exact forall_mem_nil _
    | cons first _ ih => exact forall_mem_cons.mpr ⟨first.written, ih⟩
  refine ⟨.array written, fun levels room => ?_⟩
  obtain ⟨lower, rfl, inside⟩ := depth_array_le.mp room
  rw [opens]
  change items.mapM (read lower) = some values
  clear room written
  induction each with
  | nil => rfl
  | cons first _ ih =>
    obtain ⟨here, later⟩ := forall_mem_cons.mp inside
    simp [first.reads lower here, ih later]

theorem map {encode : α → Document}
    (opens : ∀ lower json, readAll (lower + 1) json = items? (read lower) json)
    (each : ∀ value ∈ values, Decodes read (encode value) value) :
    Decodes readAll (array (values.map encode)) values :=
  list opens (forall₂_map_left_iff.mpr (forall₂_same.mpr each))

/-- A value that is there, where it may be absent. -/
theorem nullable {json : Document} {value : α} (decodes : Decodes read json value)
    (solid : json ≠ .null) :
    Decodes (fun levels json => Slot.nullable (read levels) (.given json)) json (some value) :=
  ⟨decodes.written, fun levels room => nullable_some solid (decodes.reads levels room)⟩

theorem absent : Decodes (fun levels json => Slot.nullable (read levels) (.given json)) null none :=
  ⟨.null, fun _ _ => rfl⟩

end Decodes

end Json

end ArmBackend
