import ArmBackend.Machine.Check

/-!
# Labels and targets in machine code

The labels that code defines and the targets of its branches.  Most code has neither: it
is inner code, which stands between two boundaries.
-/

namespace ArmBackend.Machine

open List

/-- The labels that code defines, in order. -/
def labelsOf (code : List Instr) : List String :=
  code.filterMap Instr.definedLabel?

variable {code : List Instr}

theorem mem_labelsOf {name : String} : name ∈ labelsOf code ↔ Instr.label name ∈ code := by
  constructor
  · intro member
    obtain ⟨instr, inside, defines⟩ := mem_filterMap.mp member
    cases instr with
    | label other => cases defines; exact inside
    | _ => cases defines
  · intro inside
    exact mem_filterMap.mpr ⟨_, inside, rfl⟩

theorem labelsOf_cons (instr : Instr) (rest : List Instr) :
    labelsOf (instr :: rest) = instr.definedLabel?.toList ++ labelsOf rest := by
  rw [labelsOf, filterMap_cons]
  cases instr.definedLabel? <;> rfl

@[simp]
theorem labelsOf_append (first second : List Instr) :
    labelsOf (first ++ second) = labelsOf first ++ labelsOf second :=
  filterMap_append

/-- The targets of the branches in code, in order. -/
def targetsOf (code : List Instr) : List String :=
  code.filterMap Instr.target?

@[simp]
theorem targetsOf_append (first second : List Instr) :
    targetsOf (first ++ second) = targetsOf first ++ targetsOf second :=
  filterMap_append

/-- The code has no boundary. -/
def Inner (code : List Instr) : Prop :=
  ∀ instr ∈ code, instr.isBoundary = false

theorem inner_nil : Inner [] :=
  fun _ => nofun

@[simp]
theorem inner_cons {instr : Instr} {rest : List Instr} :
    Inner (instr :: rest) ↔ instr.isBoundary = false ∧ Inner rest :=
  forall_mem_cons

@[simp]
theorem inner_append {first second : List Instr} :
    Inner (first ++ second) ↔ Inner first ∧ Inner second :=
  forall_mem_append

theorem inner_map {α : Type} {instr : α → Instr} (inner : ∀ value, (instr value).isBoundary = false)
    (values : List α) : Inner (values.map instr) := by
  intro other member
  obtain ⟨value, _, rfl⟩ := mem_map.mp member
  exact inner value

theorem Inner.labelsOf_eq (inner : Inner code) : labelsOf code = [] := by
  refine filterMap_eq_nil_iff.mpr fun instr member => ?_
  have here := inner instr member
  cases instr <;> first | rfl | cases here

theorem Inner.targetsOf_eq (inner : Inner code) : targetsOf code = [] := by
  refine filterMap_eq_nil_iff.mpr fun instr member => ?_
  have here := inner instr member
  cases instr <;> first | rfl | cases here

/-- The code has a return as its last line. -/
def Returns (code : List Instr) : Prop :=
  ∃ before, code = before ++ [.ret]

theorem Returns.behind (returns : Returns code) (first : List Instr) : Returns (first ++ code) := by
  obtain ⟨before, rfl⟩ := returns
  exact ⟨first ++ before, (append_assoc ..).symm⟩

theorem Returns.endsInReturn {function : Function} (returns : Returns function.body) :
    function.endsInReturn = true := by
  obtain ⟨before, same⟩ := returns
  rw [Function.endsInReturn, same, reverse_append]
  rfl

end ArmBackend.Machine
