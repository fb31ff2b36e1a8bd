import ArmBackend.Machine.Window
import ArmBackend.Proofs.Machine.Labels
import Mathlib.Algebra.Ring.Nat
import Mathlib.Data.List.Chain

/-!
# What the window rules do

A rule puts something in the place of one or two neighbours that are no boundaries.  All that
the rules do to code is a row of such rewritings, and each of these takes away an instruction
or a load from a slot.  So code comes to rest before the rounds are over.
-/

namespace ArmBackend.Machine

open List

/-- What the rule puts in the place of a window. -/
def Rule.replace? : Rule → List Instr → Option (List Instr)
  | selfMove, [instr] => if instr.isSelfMove then some [] else none
  | storeToLoad, [first, second] => forwardStore first second
  | moveBack, [first, second] => dropMoveBack first second
  | _, _ => none

/-- The windows that rules apply to, with their replacements. -/
inductive Rewrites : List Instr → List Instr → Prop where
  | selfMove (register : Reg) : Rewrites [.mov register register] []
  | reload (stored : Reg) (offset : Int) :
      Rewrites [.stur stored .fp offset, .ldur stored .fp offset] [.stur stored .fp offset]
  | storeToLoad {stored dest : Reg} (differ : stored ≠ dest) (offset : Int) :
      Rewrites [.stur stored .fp offset, .ldur dest .fp offset]
        [.stur stored .fp offset, .mov dest stored]
  | moveBack (dest source : Reg) :
      Rewrites [.mov dest source, .mov source dest] [.mov dest source]

variable {code result window replacement : List Instr}

theorem Rule.rewrites (rule : Rule) (applies : rule.replace? window = some replacement) :
    Rewrites window replacement := by
  unfold replace? at applies
  split at applies
  · next instr =>
      cases instr with
      | mov dest source =>
        obtain ⟨idle, ⟨⟩⟩ := Option.ite_none_right_eq_some.mp applies
        cases eq_of_beq idle
        exact .selfMove dest
      | _ => cases applies
  · unfold forwardStore at applies
    split at applies
    · next stored base offset dest base' offset' =>
        obtain ⟨⟨rfl, rfl, rfl⟩, ⟨⟩⟩ := Option.ite_none_right_eq_some.mp applies
        split
        · next same => exact same ▸ .reload stored offset
        · next differ => exact .storeToLoad differ offset
    · cases applies
  · unfold dropMoveBack at applies
    split at applies
    · next dest source dest' source' =>
        obtain ⟨⟨rfl, rfl⟩, ⟨⟩⟩ := Option.ite_none_right_eq_some.mp applies
        exact .moveBack source' dest'
    · cases applies
  · cases applies

/-- So many rewritings one after the other, each somewhere in the code. -/
inductive Reduces : Nat → List Instr → List Instr → Prop where
  | refl (code : List Instr) : Reduces 0 code code
  | step {hits : Nat} {window replacement result : List Instr} (before after : List Instr)
      (rewrites : Rewrites window replacement)
      (more : Reduces hits (before ++ (replacement ++ after)) result) :
      Reduces (hits + 1) (before ++ (window ++ after)) result

namespace Reduces

variable {hits more : Nat} {first second third : List Instr}

theorem trans (one : Reduces hits first second) (two : Reduces more second third) :
    Reduces (hits + more) first third := by
  induction one with
  | refl => rwa [Nat.zero_add]
  | step before after rewrites _ ih =>
    rw [Nat.succ_add]
    exact .step before after rewrites (ih two)

theorem behind (front : List Instr) (reduces : Reduces hits code result) :
    Reduces hits (front ++ code) (front ++ result) := by
  induction reduces with
  | refl => exact .refl _
  | step before after rewrites _ ih =>
    rw [← append_assoc] at ih ⊢
    exact .step (front ++ before) after rewrites ih

theorem inFront (reduces : Reduces hits code result) (back : List Instr) :
    Reduces hits (code ++ back) (result ++ back) := by
  induction reduces with
  | refl => exact .refl _
  | step before after rewrites _ ih =>
    rw [append_assoc, append_assoc] at ih ⊢
    exact .step before (after ++ back) rewrites ih

/-- What every rewriting keeps, wherever it is made, is kept. -/
theorem invariant (rel : List Instr → List Instr → Prop) (refl : ∀ code, rel code code)
    (trans : ∀ {first second third}, rel first second → rel second third → rel first third)
    (each : ∀ before after {window replacement}, Rewrites window replacement →
      rel (before ++ (window ++ after)) (before ++ (replacement ++ after)))
    (reduces : Reduces hits code result) : rel code result := by
  induction reduces with
  | refl code => exact refl code
  | step before after rewrites _ ih => exact trans (each before after rewrites) ih

end Reduces

variable (code : List Instr)

theorem reduces_dropSelfMoves :
    Reduces (dropSelfMoves code).hits code (dropSelfMoves code).code := by
  have idle {instr : Instr} (idle : instr.isSelfMove = true) : Rewrites [instr] [] :=
    Rule.rewrites .selfMove (if_pos idle)
  fun_induction dropSelfMoves code with
  | case1 => exact .refl []
  | case2 instr moves => exact .step [] [] (idle moves) (.refl [])
  | case3 instr moves passed rest others ih => exact .step [] _ (idle moves) (ih.behind [passed])
  | case4 instr rest busy others ih => exact ih.behind [instr]

theorem reduces_applyPairs {rule : PairRule}
    (rewrites : ∀ first second replacement, rule first second = some replacement →
      Rewrites [first, second] replacement) (code : List Instr) :
    Reduces (applyPairs rule code).hits code (applyPairs rule code).code := by
  fun_induction applyPairs rule code with
  | case1 => exact .refl []
  | case2 instr => exact .refl [instr]
  | case3 first second rest replacement found others ih =>
    exact .step [] rest (rewrites first second replacement found) (ih.behind replacement)
  | case4 first second rest none others ih => exact ih.behind [first]

theorem reduces_apply (rule : Rule) (code : List Instr) :
    Reduces (rule.apply code).hits code (rule.apply code).code := by
  cases rule with
  | selfMove => exact reduces_dropSelfMoves code
  | storeToLoad => exact reduces_applyPairs (fun _ _ _ => Rule.rewrites .storeToLoad) code
  | moveBack => exact reduces_applyPairs (fun _ _ _ => Rule.rewrites .moveBack) code

variable (rules : List Rule)

theorem reduces_applyRules (code : List Instr) :
    Reduces (applyRules rules code).hits.sum code (applyRules rules code).code := by
  induction rules generalizing code with
  | nil => exact .refl code
  | cons rule rest ih => exact (reduces_apply rule code).trans (ih _)

theorem reduces_tidyStretch (code : List Instr) :
    ∃ hits, Reduces hits code (tidyStretch rules code).code := by
  have rounds (rounds : Nat) (code : List Instr) :
      ∃ hits, Reduces hits code (applyRounds rules rounds code).code := by
    induction rounds generalizing code with
    | zero => exact ⟨0, .refl code⟩
    | succ rounds ih =>
      have round := reduces_applyRules rules code
      obtain ⟨more, others⟩ := ih (applyRules rules code).code
      rw [applyRounds]
      dsimp only
      split
      · exact ⟨_, round⟩
      · exact ⟨_, round.trans others⟩
  exact rounds _ code

/-! ## Cut code -/

theorem toCode_ofCode : (Stretches.ofCode code).toCode = code := by
  induction code with
  | nil => rfl
  | cons instr rest ih =>
    rw [Stretches.ofCode]
    split
    · exact congrArg (instr :: ·) ih
    · exact congrArg (instr :: ·) ih

/-- The instruction is none of the boundaries of the code. -/
def Between (code : List Instr) (instr : Instr) : Prop :=
  instr.isBoundary = false ∧ instr ∈ code

/-- The stretches have all that is no boundary, and only that. -/
theorem between_ofCode :
    (∀ instr ∈ (Stretches.ofCode code).first, Between code instr) ∧
      ∀ entry ∈ (Stretches.ofCode code).others, entry.1.isBoundary = true ∧
        ∀ instr ∈ entry.2, Between code instr := by
  induction code with
  | nil => exact ⟨nofun, nofun⟩
  | cons instr rest ih =>
    have later {other : Instr} (between : Between rest other) : Between (instr :: rest) other :=
      ⟨between.1, mem_cons_of_mem _ between.2⟩
    have first other member := later (ih.1 other member)
    have others entry member := And.imp_right (fun stretch other inside =>
      later (stretch other inside)) (ih.2 entry member)
    rw [Stretches.ofCode]
    split
    · next boundary => exact ⟨nofun, forall_mem_cons.mpr ⟨⟨boundary, first⟩, others⟩⟩
    · next inside =>
        exact ⟨forall_mem_cons.mpr ⟨⟨Bool.eq_false_iff.mpr inside, mem_cons_self ..⟩, first⟩, others⟩

theorem reduces_tidyCode (code : List Instr) :
    ∃ hits, Reduces hits code (tidyCode rules code).code := by
  have others (others : List (Instr × List Instr)) : ∃ hits, Reduces hits
      (others.flatMap fun entry => entry.1 :: entry.2) (tidyOthers rules others).code := by
    induction others with
    | nil => exact ⟨0, .refl []⟩
    | cons entry rest ih =>
      obtain ⟨boundary, stretch⟩ := entry
      obtain ⟨hits, here⟩ := reduces_tidyStretch rules stretch
      obtain ⟨more, later⟩ := ih
      exact ⟨_, ((here.behind [boundary]).inFront _).trans (later.behind _)⟩
  obtain ⟨hits, first⟩ := reduces_tidyStretch rules (Stretches.ofCode code).first
  obtain ⟨more, later⟩ := others (Stretches.ofCode code).others
  have both := (first.inFront _).trans (later.behind _)
  rw [← Stretches.toCode, toCode_ofCode] at both
  exact ⟨_, both⟩

end ArmBackend.Machine
