import ArmBackend.Proofs.Machine.Tidying
import Mathlib.Data.List.Infix

/-!
# Code at rest

The rounds over a stretch end because a round finds nothing, never because they are used up.
So no rule applies anywhere in the code of a tidied function.  Its boundaries are those that
the function had, without the jumps to the label behind them.
-/

namespace ArmBackend.Machine

open List

variable {code result window : List Instr}

/-! ## The rounds are enough -/

/-- Each instruction counts once, and a load from a slot once more. -/
def weight (code : List Instr) : Nat :=
  code.length + code.countP fun instr => instr matches .ldur ..

theorem weight_le (code : List Instr) : weight code ≤ 2 * code.length := by
  rw [weight, Nat.two_mul]
  exact Nat.add_le_add_left countP_le_length _

namespace Reduces

variable {hits : Nat}

theorem weight_add_le (reduces : Reduces hits code result) :
    weight result + hits ≤ weight code := by
  induction reduces with
  | refl => exact Nat.le_refl _
  | @step hits window replacement result before after rewrites _ ih =>
    -- an instruction goes, or a load becomes a move
    have lighter : weight replacement + 1 ≤ weight window := by
      cases rewrites <;> simp [weight]
    simp only [weight, length_append, countP_append] at ih lighter ⊢
    omega

theorem eq_of_zero (reduces : Reduces 0 code result) : result = code := by
  cases reduces
  rfl

end Reduces

/-- No rule finds anything in one round. -/
def Quiet (rules : List Rule) (code : List Instr) : Prop :=
  (applyRules rules code).hits.sum = 0

theorem quiet_iff (rules : List Rule) (code : List Instr) :
    (applyRules rules code).hits.all (· == 0) = true ↔ Quiet rules code := by
  rw [Quiet, List.sum_eq_zero_iff_forall_eq_nat]
  simp only [all_eq_true, beq_iff_eq]

theorem applyRounds_of_weight (rules : List Rule) (rounds : Nat) (code : List Instr)
    (enough : weight code < rounds) :
    Quiet rules (applyRounds rules rounds code).code ∧
      ∀ more, applyRounds rules (rounds + more) code = applyRounds rules rounds code := by
  induction rounds generalizing code with
  | zero => cases enough
  | succ rounds ih =>
    have reduces := reduces_applyRules rules code
    simp only [Nat.succ_add, applyRounds]
    split
    · next zero =>
        have quiet : Quiet rules code := (quiet_iff rules code).mp zero
        have same := (quiet ▸ reduces).eq_of_zero
        exact ⟨same.symm ▸ quiet, fun _ => rfl⟩
    · next busy =>
        have lighter : weight (applyRules rules code).code < rounds := by
          have less := reduces.weight_add_le
          have hits : (applyRules rules code).hits.sum ≠ 0 := mt (quiet_iff rules code).mpr busy
          omega
        obtain ⟨quiet, fixed⟩ := ih _ lighter
        exact ⟨quiet, fun more => by rw [fixed more]⟩

theorem applyRounds_eq_tidyStretch (rules : List Rule) (code : List Instr) :
    Quiet rules (tidyStretch rules code).code ∧
      ∀ more, applyRounds rules (2 * code.length + 1 + more) code = tidyStretch rules code :=
  applyRounds_of_weight rules _ code (Nat.lt_succ_of_le (weight_le code))

/-! ## What a round without hits says -/

theorem dropSelfMoves_quiet (quiet : (dropSelfMoves code).hits = 0) :
    ∀ instr ∈ code, instr.isSelfMove = false := by
  fun_induction dropSelfMoves code with
  | case1 => exact forall_mem_nil _
  | case2 | case3 => cases quiet
  | case4 instr rest busy others ih =>
    exact forall_mem_cons.mpr ⟨Bool.eq_false_iff.mpr busy, ih quiet⟩

theorem applyPairs_quiet {rule : PairRule} (quiet : (applyPairs rule code).hits = 0)
    {first second : Instr} (inside : [first, second] <:+: code) : rule first second = none := by
  fun_induction applyPairs rule code with
  | case1 => cases infix_nil.mp inside
  | case2 => exact absurd inside.length_le (Nat.not_succ_le_self 1)
  | case3 => cases quiet
  | case4 one two rest none others ih =>
    rcases infix_cons_iff.mp inside with here | later
    · obtain ⟨rfl, tail⟩ := cons_prefix_cons.mp here
      obtain ⟨rfl, _⟩ := cons_prefix_cons.mp tail
      exact none
    · exact ih quiet later

theorem Rule.replace?_of_quiet (rule : Rule) (quiet : (rule.apply code).hits = 0)
    (inside : window <:+: code) : rule.replace? window = none := by
  unfold replace?
  split
  · next instr =>
      have busy := dropSelfMoves_quiet quiet instr (inside.mem (mem_singleton_self instr))
      exact if_neg (Bool.eq_false_iff.mp busy)
  · exact applyPairs_quiet quiet inside
  · exact applyPairs_quiet quiet inside
  · rfl

theorem Quiet.replace? {rules : List Rule} (quiet : Quiet rules code) {rule : Rule}
    (member : rule ∈ rules) (inside : window <:+: code) : rule.replace? window = none := by
  induction rules with
  | nil => cases member
  | cons first rest ih =>
    obtain ⟨here, later⟩ := Nat.add_eq_zero_iff.mp quiet
    rcases mem_cons.mp member with rfl | member
    · exact rule.replace?_of_quiet here inside
    · have same := (here ▸ reduces_apply first code).eq_of_zero
      exact ih (same ▸ later) member

/-! ## From stretches to code -/

/-- No rule applies to any window of the code. -/
def Settled (code : List Instr) : Prop :=
  ∀ rule : Rule, ∀ window, window <:+: code → rule.replace? window = none

theorem settled_tidyStretch (code : List Instr) :
    Settled (tidyStretch Rule.standard code).code := by
  intro rule window inside
  have standard : rule ∈ Rule.standard := by cases rule <;> decide
  exact (applyRounds_eq_tidyStretch Rule.standard code).1.replace? standard inside

theorem infix_of_notMem {α : Type} {window first rest : List α} {middle : α}
    (inside : window <:+: first ++ middle :: rest) (absent : middle ∉ window) :
    window <:+: first ∨ window <:+: rest := by
  have short {first : List α} (here : window <+: first ++ middle :: rest) : window <+: first := by
    rcases prefix_or_prefix_of_prefix here (prefix_append first _) with done | ⟨more, rfl⟩
    · exact done
    · cases more with
      | nil => rw [append_nil]
      | cons head tail =>
        obtain ⟨rfl, _⟩ := cons_prefix_cons.mp ((prefix_append_right_inj first).mp here)
        exact absurd (mem_append_right first (mem_cons_self ..)) absent
  induction first with
  | nil =>
    rcases infix_cons_iff.mp inside with here | later
    · exact .inl (short here).isInfix
    · exact .inr later
  | cons head first ih =>
    rcases infix_cons_iff.mp inside with here | later
    · exact .inl (short here).isInfix
    · exact (ih later).imp_left infix_cons

theorem Rewrites.boundary_notMem {replacement : List Instr} (rewrites : Rewrites window replacement)
    {boundary : Instr} (ends : boundary.isBoundary = true) : boundary ∉ window := by
  intro member
  have none : ∀ instr ∈ window, instr.isBoundary = false := by
    cases rewrites <;> simp [Instr.isBoundary]
  rw [none boundary member] at ends
  cases ends

theorem Settled.append {first rest : List Instr} (here : Settled first) (later : Settled rest)
    {boundary : Instr} (ends : boundary.isBoundary = true) :
    Settled (first ++ boundary :: rest) := by
  intro rule window inside
  rw [Option.eq_none_iff_forall_ne_some]
  intro replacement applies
  have absent := (rule.rewrites applies).boundary_notMem ends
  rcases infix_of_notMem inside absent with inFirst | inRest
  · cases applies.symm.trans (here rule window inFirst)
  · cases applies.symm.trans (later rule window inRest)

theorem settled_tidyCode (code : List Instr) : Settled (tidyCode Rule.standard code).code := by
  obtain ⟨_, ends⟩ := between_ofCode code
  have others (first : List Instr) (here : Settled first) (others : List (Instr × List Instr))
      (ends : ∀ entry ∈ others, entry.1.isBoundary = true) :
      Settled (first ++ (tidyOthers Rule.standard others).code) := by
    induction others generalizing first with
    | nil => exact (append_nil first).symm ▸ here
    | cons entry rest ih =>
      obtain ⟨now, later⟩ := forall_mem_cons.mp ends
      exact here.append (ih _ (settled_tidyStretch entry.2) later) now
  exact others _ (settled_tidyStretch _) _ fun entry member => (ends entry member).1

/-! ## Boundaries -/

/-- Where the code ends stretches, in order. -/
def boundaries (code : List Instr) : List Instr :=
  code.filter Instr.isBoundary

theorem boundaries_tidyCode (rules : List Rule) (code : List Instr) :
    boundaries (tidyCode rules code).code = boundaries code := by
  obtain ⟨hits, reduces⟩ := reduces_tidyCode rules code
  refine reduces.invariant (fun code result => boundaries result = boundaries code)
    (fun _ => rfl) (fun one two => two.trans one) fun before after _ _ rewrites => ?_
  simp only [boundaries, filter_append]
  cases rewrites <;> rfl

/-- The code begins with a jump to the label behind it. -/
def startsShort : List Instr → Bool
  | .b target :: .label name :: _ => target == name
  | _ => false

/-- The instructions that no short jump begins at. -/
def keptInstrs (code : List Instr) : List Instr :=
  (code.tails.filter fun tail => !startsShort tail).filterMap head?

theorem startsShort_cons (instr : Instr) (rest : List Instr) :
    startsShort (instr :: rest) = true ↔
      ∃ target, instr = .b target ∧ rest.head? = some (.label target) := by
  constructor
  · intro short
    unfold startsShort at short
    split at short
    · next starts =>
        cases starts
        exact ⟨_, rfl, eq_of_beq short ▸ rfl⟩
    · cases short
  · rintro ⟨target, rfl, next⟩
    obtain ⟨more, rfl⟩ := head?_eq_some_iff.mp next
    exact beq_self_eq_true target

theorem dropJumpsToNext_eq (code : List Instr) :
    dropJumpsToNext code = ⟨keptInstrs code, code.tails.countP startsShort⟩ := by
  fun_induction dropJumpsToNext code with
  | case1 => rfl
  | case2 rest others target next ih =>
    have short := (startsShort_cons (.b target) rest).mpr ⟨target, rfl, next⟩
    simp [others, ih, keptInstrs, short]
  | case3 rest others target far ih =>
    have long : ¬ startsShort (.b target :: rest) = true := by
      rw [startsShort_cons]
      rintro ⟨_, ⟨⟩, next⟩
      exact far next
    simp [others, ih, keptInstrs, long]
  | case4 instr rest others other ih =>
    have long : ¬ startsShort (instr :: rest) = true := by
      rw [startsShort_cons]
      rintro ⟨target, jump, _⟩
      exact other target jump
    simp [others, ih, keptInstrs, long]

/-- What tidying leaves of the code of a function. -/
structure AtRest (code result : List Instr) : Prop where
  settled : Settled result
  kept : boundaries result = boundaries (keptInstrs code)

theorem atRest_tidyFunctions (functions : List Function) :
    Forall₂ (fun function result => AtRest function.body result.body)
        functions (tidyFunctions Rule.standard functions).functions ∧
      (tidyFunctions Rule.standard functions).jumps =
        (functions.map fun function => function.body.tails.countP startsShort).sum := by
  induction functions with
  | nil => exact ⟨.nil, rfl⟩
  | cons function rest ih =>
    have jumps := dropJumpsToNext_eq function.body
    refine ⟨.cons ⟨settled_tidyCode _, ?_⟩ ih.1, ?_⟩
    · rw [boundaries_tidyCode, jumps]
    · rw [tidyFunctions, map_cons, sum_cons, jumps, ih.2]

theorem hitsOf_jumpToNextName (program : Program) :
    program.tidy.2.hitsOf jumpToNextName =
      (tidyFunctions Rule.standard program.functions).jumps := by
  have other : ((Rule.standard.map Rule.name).zip
      (tidyFunctions Rule.standard program.functions).hits).lookup jumpToNextName = none := by
    rw [lookup_eq_none_iff]
    intro entry member
    have named := (of_mem_zip member).1
    revert named
    generalize entry.1 = name
    revert name
    decide
  rw [TidyStats.hitsOf, Program.tidy, Program.tidyWith, lookup_append, other]
  rfl

/-- The rounds over a stretch end with one that finds nothing: more rounds would change nothing.
So no rule applies in a tidied program, and the boundaries that are gone are the jumps to the
label behind them that were counted. -/
theorem tidy_comes_to_rest (program : Program) :
    (∀ stretch more, applyRounds Rule.standard (2 * stretch.length + 1 + more) stretch =
        tidyStretch Rule.standard stretch) ∧
      Forall₂ (fun function result => AtRest function.body result.body)
        program.functions program.tidy.1.functions ∧
      program.tidy.2.hitsOf jumpToNextName =
        (program.functions.map fun function => function.body.tails.countP startsShort).sum := by
  obtain ⟨rest, jumps⟩ := atRest_tidyFunctions program.functions
  have rounds stretch := (applyRounds_eq_tidyStretch Rule.standard stretch).2
  exact ⟨rounds, rest, (hitsOf_jumpToNextName program).trans jumps⟩

end ArmBackend.Machine
