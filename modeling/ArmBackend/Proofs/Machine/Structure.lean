import ArmBackend.Proofs.Machine.Emission
import ArmBackend.Proofs.Machine.Tidying

/-!
# Structure of assembled programs

Assembled functions return at their end, and their branches go to labels of their own.
The window rules keep this, and no structural check fails on such a program.
-/

namespace ArmBackend.Machine

open List

/-! ## Window rules -/

/-- The result has nothing new but moves. -/
def AddsMoves (code result : List Instr) : Prop :=
  ∀ instr ∈ result, instr ∈ code ∨ ∃ dest source, instr = .mov dest source

variable {code : List Instr}

/-- Rewriting keeps labels, targets, returns and a return at the end, and adds moves only. -/
structure KeepsEdges (code result : List Instr) : Prop where
  adds : AddsMoves code result
  labels : labelsOf result = labelsOf code
  targets : targetsOf result = targetsOf code
  count : result.count .ret = code.count .ret
  returns : Returns code → Returns result

namespace KeepsEdges

theorem refl (code : List Instr) : KeepsEdges code code :=
  ⟨fun _ => .inl, rfl, rfl, rfl, id⟩

theorem trans {first second third : List Instr} (one : KeepsEdges first second)
    (two : KeepsEdges second third) : KeepsEdges first third where
  adds instr member := (two.adds instr member).elim (one.adds instr) .inr
  labels := two.labels.trans one.labels
  targets := two.targets.trans one.targets
  count := two.count.trans one.count
  returns := two.returns ∘ one.returns

theorem of_rewrites (before after : List Instr) {window replacement : List Instr}
    (rewrites : Rewrites window replacement) :
    KeepsEdges (before ++ (window ++ after)) (before ++ (replacement ++ after)) where
  adds instr member := by
    cases rewrites <;> simp only [mem_append, mem_cons, not_mem_nil, or_false] at member ⊢ <;> grind
  labels := by
    simp only [labelsOf_append]
    cases rewrites <;> rfl
  targets := by
    simp only [targetsOf_append]
    cases rewrites <;> rfl
  count := by
    simp only [count_append]
    cases rewrites <;> rfl
  returns returns := by
    obtain ⟨front, same⟩ := returns
    rcases eq_nil_or_concat after with rfl | ⟨inner, last, rfl⟩
    · have last := congrArg getLast? same
      cases rewrites <;> simp at last
    · rw [concat_eq_append, ← append_assoc, ← append_assoc] at same
      refine ⟨before ++ (replacement ++ inner), ?_⟩
      rw [← (append_inj' same rfl).2, concat_eq_append, append_assoc, append_assoc]

end KeepsEdges

theorem keepsEdges_tidyCode (rules : List Rule) (code : List Instr) :
    KeepsEdges code (tidyCode rules code).code := by
  obtain ⟨hits, reduces⟩ := reduces_tidyCode rules code
  exact reduces.invariant KeepsEdges .refl .trans .of_rewrites

theorem labelsOf_withoutShortJumps (code : List Instr) :
    labelsOf (withoutShortJumps code) = labelsOf code := by
  induction code with
  | nil => rfl
  | cons instr rest ih =>
    rcases withoutShortJumps_cons instr rest with ⟨_, rfl, _, dropped⟩ | kept
    · rw [dropped, ih]
      rfl
    · rw [kept, labelsOf_cons, labelsOf_cons, ih]

theorem count_ret_withoutShortJumps (code : List Instr) :
    (withoutShortJumps code).count .ret = code.count .ret := by
  induction code with
  | nil => rfl
  | cons instr rest ih =>
    rcases withoutShortJumps_cons instr rest with ⟨_, rfl, _, dropped⟩ | kept
    · rw [dropped, ih]
      rfl
    · rw [kept, count_cons, count_cons, ih]

theorem Returns.withoutShortJumps (returns : Returns code) :
    Returns (Machine.withoutShortJumps code) := by
  obtain ⟨before, rfl⟩ := returns
  induction before with
  | nil => exact ⟨[], rfl⟩
  | cons instr before ih =>
    rcases withoutShortJumps_cons instr (before ++ [.ret]) with ⟨_, _, _, dropped⟩ | kept
    · rw [cons_append, dropped]
      exact ih
    · rw [cons_append, kept]
      exact ih.behind [instr]

/-! ## Programs -/

/-- The function returns at its end, and its branches go to its own labels. -/
structure Function.Structured (function : Function) : Prop where
  returns : Returns function.body
  landing : targetsOf function.body ⊆ labelsOf function.body

/-- The function has the same name, labels and returns, no other targets, and a return at its end if
it had one. -/
structure Function.KeepsStructure (function tidied : Function) : Prop where
  name : tidied.name = function.name
  labels : labelsOf tidied.body = labelsOf function.body
  targets : targetsOf tidied.body ⊆ targetsOf function.body
  count : tidied.body.count .ret = function.body.count .ret
  returns : Returns function.body → Returns tidied.body

theorem Function.KeepsStructure.structured {function tidied : Function}
    (keeps : function.KeepsStructure tidied) (structured : function.Structured) :
    tidied.Structured :=
  ⟨keeps.returns structured.returns,
    fun _ member => keeps.labels ▸ structured.landing (keeps.targets member)⟩

theorem keepsStructure_tidyFunctions (rules : List Rule) (functions : List Function) :
    Forall₂ Function.KeepsStructure functions (tidyFunctions rules functions).functions := by
  induction functions with
  | nil => exact .nil
  | cons function rest ih =>
    have edges := keepsEdges_tidyCode rules (withoutShortJumps function.body)
    have targets := filterMap_subset Instr.target? (withoutShortJumps_subset function.body)
    exact .cons ⟨rfl, edges.labels.trans (labelsOf_withoutShortJumps _), edges.targets ▸ targets,
      edges.count.trans (count_ret_withoutShortJumps _),
      fun returns => edges.returns returns.withoutShortJumps⟩ ih

section

variable {functions tidied : List Function}

variable (keeps : Forall₂ Function.KeepsStructure functions tidied)
include keeps

theorem names_of_keepsStructure : tidied.map Function.name = functions.map Function.name := by
  induction keeps with
  | nil => rfl
  | cons head _ ih => exact congrArg₂ List.cons head.name ih

theorem labels_of_keepsStructure :
    (tidied.flatMap fun function => labelsOf function.body) =
      functions.flatMap fun function => labelsOf function.body := by
  induction keeps with
  | nil => rfl
  | cons head _ ih => rw [flatMap_cons, flatMap_cons, head.labels, ih]

end

namespace Program

/-- Well-structured functions, at least one of them. -/
structure Structured (program : Program) : Prop where
  nonempty : program.functions ≠ []
  functions : ∀ function ∈ program.functions, function.Structured

end Program

theorem labelsOf_flatMap {α : Type} {lines : α → List Instr} {names : α → List String}
    (each : ∀ object, labelsOf (lines object) = names object) (objects : List α) :
    labelsOf (objects.flatMap lines) = objects.flatMap names := by
  induction objects with
  | nil => rfl
  | cons object rest ih => rw [flatMap_cons, flatMap_cons, labelsOf_append, each, ih]

theorem Function.labelsOf_lines (function : Function) :
    labelsOf function.lines = function.name :: labelsOf function.body := by
  rw [lines, labelsOf_append, labelsOf_append]
  exact append_nil (function.name :: labelsOf function.body)

theorem Program.labels_eq (program : Program) :
    program.labels =
      program.strings.map StringObject.label ++ program.data.map DataObject.symbol ++
        program.functions.flatMap fun function => function.name :: labelsOf function.body := by
  have string (object : StringObject) : labelsOf object.lines = [object.label] := rfl
  have datum (object : DataObject) : labelsOf object.lines = [object.symbol] := rfl
  have strings : labelsOf (if program.strings.isEmpty then []
      else .directive ".section .rodata" :: program.strings.flatMap StringObject.lines) =
        program.strings.map StringObject.label := by
    split
    · next empty => rw [List.isEmpty_iff.mp empty]; rfl
    · rw [labelsOf_cons, labelsOf_flatMap string, map_eq_flatMap]
      rfl
  have data : labelsOf (if program.data.isEmpty then []
      else .directive ".data" :: .directive ".align 3" ::
        program.data.flatMap DataObject.lines) = program.data.map DataObject.symbol := by
    split
    · next empty => rw [List.isEmpty_iff.mp empty]; rfl
    · rw [labelsOf_cons, labelsOf_cons, labelsOf_flatMap datum, map_eq_flatMap]
      rfl
  have whole : program.labels = labelsOf program.lines := rfl
  rw [whole, lines, labelsOf_append, labelsOf_append, labelsOf_append, strings, data,
    labelsOf_cons (.directive ".text"), labelsOf_flatMap Function.labelsOf_lines]
  rfl

/-- A well-structured program passes every check. -/
theorem Program.Structured.problems_eq {program : Program} (structured : program.Structured) :
    program.problems = [] := by
  have instrs : (program.functions.isEmpty || program.instrCount == 0) = false := by
    cases all : program.functions with
    | nil => exact absurd all structured.nonempty
    | cons function rest =>
      obtain ⟨before, same⟩ :=
        (structured.functions function (all ▸ mem_cons_self ..)).returns
      have counted : 0 < function.instrCount := by
        rw [Function.instrCount, same]
        exact countP_pos_iff.mpr
          ⟨.ret, mem_append_right _ (mem_singleton.mpr rfl), rfl⟩
      have count : program.instrCount ≠ 0 := by
        rw [instrCount, all, foldr_cons]
        omega
      simpa using count
  have each : ∀ function ∈ program.functions,
      Function.problems program.labels function = [] := by
    intro function member
    obtain ⟨returns, landing⟩ := structured.functions function member
    have listed : function.name :: labelsOf function.body ⊆ program.labels := by
      intro name inside
      rw [labels_eq]
      exact mem_append_right _ (mem_flatMap.mpr ⟨function, member, inside⟩)
    have named : program.labels.contains function.name = true :=
      contains_iff_mem.mpr (listed (mem_cons_self ..))
    have targets : (function.body.filterMap Instr.target?).filter
        (fun target => !program.labels.contains target) = [] := by
      refine filter_eq_nil_iff.mpr fun target wanted => ?_
      have inside := listed (mem_cons_of_mem _ (landing wanted))
      simpa using inside
    rw [Function.problems, named, targets, returns.endsInReturn]
    rfl
  rw [problems, instrs, flatMap_eq_nil_iff.mpr each]
  rfl

end ArmBackend.Machine
