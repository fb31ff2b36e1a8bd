import ArmBackend.Ir.Pass.Labels
import ArmBackend.Proofs.Ir.Semantics

/-!
# Labels and arrays in code

The labels that stand in code, those that it jumps to, and the arrays that it sets up.  Where no label stands
twice, a jump goes to the one place behind its label.
-/

namespace ArmBackend.Ir

open List

variable {instr label : Instr} {code : List Instr} {name : String}

namespace Instr

/-- The label that an instruction is. -/
def mark? (instr : Instr) : Option String :=
  if instr.opcode = .label then instr.label else none

theorem marks_iff (instr : Instr) (name : String) :
    instr.marks name = true ↔ instr.mark? = some name := by
  unfold marks mark?
  split <;> simp_all

/-- Neither a label nor an array. -/
def isPlain (instr : Instr) : Bool :=
  match instr.opcode with
  | .label | .allocArray => false
  | _ => true

theorem mark?_of_isPlain (plain : instr.isPlain = true) : instr.mark? = none := by
  unfold isPlain at plain
  unfold mark?
  split
  · next same => rw [same] at plain; cases plain
  · rfl

/-- Neither a label, an array nor a jump. -/
def isSimple (instr : Instr) : Bool :=
  instr.isPlain && !instr.opcode.isBranch

theorem isPlain_of_isSimple (simple : instr.isSimple = true) : instr.isPlain = true :=
  (Bool.and_eq_true_iff.mp simple).1

theorem target?_of_isSimple (simple : instr.isSimple = true) : instr.target? = none :=
  if_neg (Bool.eq_false_iff.mp (Bool.not_eq_true' _ ▸ (Bool.and_eq_true_iff.mp simple).2))

end Instr

/-- The labels in code, in order. -/
def marksOf (code : List Instr) : List String :=
  code.filterMap Instr.mark?

@[simp]
theorem marksOf_nil : marksOf [] = [] :=
  rfl

theorem marksOf_cons (instr : Instr) (rest : List Instr) :
    marksOf (instr :: rest) = instr.mark?.toList ++ marksOf rest := by
  rw [marksOf, filterMap_cons]
  cases instr.mark? <;> rfl

variable (first second : List Instr)

@[simp]
theorem marksOf_append : marksOf (first ++ second) = marksOf first ++ marksOf second :=
  filterMap_append

@[simp]
theorem jumpTargets_nil : jumpTargets [] = [] :=
  rfl

theorem jumpTargets_cons (instr : Instr) (rest : List Instr) :
    jumpTargets (instr :: rest) = instr.target?.toList ++ jumpTargets rest := by
  rw [jumpTargets, filterMap_cons]
  cases instr.target? <;> rfl

@[simp]
theorem jumpTargets_append :
    jumpTargets (first ++ second) = jumpTargets first ++ jumpTargets second :=
  filterMap_append

/-- The instructions that set up arrays. -/
def arraysOf (code : List Instr) : List Instr :=
  code.filter fun instr => instr.opcode == .allocArray

@[simp]
theorem arraysOf_nil : arraysOf [] = [] :=
  rfl

@[simp]
theorem arraysOf_append : arraysOf (first ++ second) = arraysOf first ++ arraysOf second :=
  filter_append ..

section

variable (name : String) (rest : List Instr)

@[simp]
theorem parts_mark :
    marksOf (Instr.mark name :: rest) = name :: marksOf rest ∧
      jumpTargets (Instr.mark name :: rest) = jumpTargets rest ∧
      arraysOf (Instr.mark name :: rest) = arraysOf rest :=
  ⟨rfl, rfl, rfl⟩

@[simp]
theorem parts_jump :
    marksOf (Instr.jump name :: rest) = marksOf rest ∧
      jumpTargets (Instr.jump name :: rest) = name :: jumpTargets rest ∧
      arraysOf (Instr.jump name :: rest) = arraysOf rest :=
  ⟨rfl, rfl, rfl⟩

@[simp]
theorem parts_jumpIf (line : Nat) (condition : Operand) :
    let instr := (Instr.jumpIf false condition name).atLine line
    marksOf (instr :: rest) = marksOf rest ∧
      jumpTargets (instr :: rest) = name :: jumpTargets rest ∧
      arraysOf (instr :: rest) = arraysOf rest :=
  ⟨rfl, rfl, rfl⟩

end

theorem marksOf_of_plain (plain : ∀ instr ∈ code, instr.isPlain = true) : marksOf code = [] :=
  filterMap_eq_nil_iff.mpr fun instr member => Instr.mark?_of_isPlain (plain instr member)

theorem jumpTargets_of_simple (simple : ∀ instr ∈ code, instr.isSimple = true) :
    jumpTargets code = [] :=
  filterMap_eq_nil_iff.mpr fun instr member =>
    Instr.target?_of_isSimple (simple instr member)

theorem arraysOf_of_plain (plain : ∀ instr ∈ code, instr.isPlain = true) : arraysOf code = [] := by
  refine filter_eq_nil_iff.mpr fun instr member alloc => ?_
  have clash := plain instr member
  rw [Instr.isPlain, eq_of_beq alloc] at clash
  cases clash

/-- A jump goes behind the first label of its name. -/
theorem afterLabel_append {before : List Instr} (outside : name ∉ marksOf before)
    (marks : label.marks name = true) (after : List Instr) :
    afterLabel name (before ++ label :: after) = some after := by
  induction before with
  | nil => rw [nil_append, afterLabel, if_pos marks]
  | cons instr before ih =>
    rw [marksOf_cons, mem_append, not_or] at outside
    have apart : ¬ instr.marks name = true := by
      intro found
      rw [(instr.marks_iff name).mp found] at outside
      exact outside.1 (mem_singleton.mpr rfl)
    rw [cons_append, afterLabel, if_neg apart]
    exact ih outside.2

theorem afterLabel_of_nodup {after : List Instr} (distinct : (marksOf code).Nodup)
    (inside : label :: after <:+ code) (marks : label.marks name = true) :
    afterLabel name code = some after := by
  obtain ⟨before, rfl⟩ := inside
  refine afterLabel_append ?_ marks after
  rw [marksOf_append, marksOf_cons] at distinct
  intro member
  rw [(label.marks_iff name).mp marks] at distinct
  exact (nodup_append.mp distinct).2.2 name member name
    (mem_append_left _ (mem_singleton.mpr rfl)) rfl

theorem afterLabel_suffix {target : List Instr} (found : afterLabel name code = some target) :
    target <:+ code := by
  induction code with
  | nil => cases found
  | cons instr rest ih =>
    rw [afterLabel] at found
    split at found
    · cases found
      exact suffix_cons instr target
    · exact (ih found).trans (suffix_cons instr rest)

theorem afterLabel_map {change : Instr → Instr}
    (kept : ∀ instr name, (change instr).marks name = instr.marks name) (name : String)
    (code : List Instr) :
    afterLabel name (code.map change) = (afterLabel name code).map (List.map change) := by
  induction code with
  | nil => rfl
  | cons instr rest ih =>
    rw [map_cons, afterLabel, afterLabel, kept, ih]
    split <;> rfl

theorem afterLabel_filter {keep : Instr → Bool}
    (kept : ∀ instr ∈ code, instr.marks name = true → keep instr = true) :
    afterLabel name (code.filter keep) = (afterLabel name code).map (List.filter keep) := by
  induction code with
  | nil => rfl
  | cons instr rest ih =>
    have inner := ih fun other member => kept other (mem_cons_of_mem _ member)
    rw [afterLabel]
    cases marks : instr.marks name with
    | true =>
      rw [filter_cons_of_pos (kept instr (mem_cons_self ..) marks), afterLabel, marks]
      rfl
    | false =>
      rw [filter_cons]
      split
      · rw [afterLabel, marks]
        exact inner
      · exact inner

end ArmBackend.Ir
