import ArmBackend.Ir.Sweep
import ArmBackend.Proofs.Passes.Jumps
import ArmBackend.Proofs.Passes.LoadForwarding
import ArmBackend.Proofs.Passes.Propagation

/-!
# What passes leave standing

Passes drop instructions and turn instructions into others, one for one.  They leave alone
what a function begins and ends with, the passing of arguments and whatever consumes a value,
write no place that was not written, and refer to nothing that was not referred to.  No label
is made up, and where every jump had a label to go to it still has one.
-/

namespace ArmBackend.Ir

open List Option

/-- Operations that are never dropped, nor turned into others. -/
def Opcode.isStanding : Opcode → Bool
  | .enter | .exit | .ret | .arg | .call | .print | .println | .store | .arrayStore | .push
  | .pop => true
  | _ => false

/-- The second instruction is the first one with other values and other indices. -/
structure Instr.Keeps (instr kept : Instr) : Prop where
  opcode : kept.opcode = instr.opcode
  label : kept.label = instr.label
  line : kept.line = instr.line
  comment : kept.comment = instr.comment
  sources : kept.src1.isSome = instr.src1.isSome ∧ kept.src2.isSome = instr.src2.isSome
  dest : instr.opcode ≠ .arrayStore → kept.dest = instr.dest
  /-- the array of an element stays -/
  array : ∀ name index type, instr.dest = some (.element name index type) →
    ∃ other, kept.dest = some (.element name other type)
  /-- the position of an argument stays -/
  position : ∀ value type, instr.src2 = some (.immediate value type) →
    kept.src2 = some (.immediate value type)

theorem Instr.Keeps.refl (instr : Instr) : instr.Keeps instr :=
  ⟨rfl, rfl, rfl, rfl, ⟨rfl, rfl⟩, fun _ => rfl, fun _ index _ whole => ⟨index, whole⟩, fun _ _ => id⟩

variable {instr : Instr} {keep : Instr → Bool} {code trimmed : List Instr} {used : List Location}
  {opcode : Opcode} {value : Operand}

theorem Instr.Keeps.trans {kept other : Instr} (one : instr.Keeps kept) (two : kept.Keeps other) :
    instr.Keeps other where
  opcode := two.opcode.trans one.opcode
  label := two.label.trans one.label
  line := two.line.trans one.line
  comment := two.comment.trans one.comment
  sources := ⟨two.sources.1.trans one.sources.1, two.sources.2.trans one.sources.2⟩
  dest plain := (two.dest (one.opcode ▸ plain)).trans (one.dest plain)
  array name index type whole := by
    obtain ⟨between, same⟩ := one.array name index type whole
    exact two.array name between type same
  position value type given := two.position value type (one.position value type given)

/-- What an instruction that is kept may be turned into, by renaming its operands or not. -/
structure Instr.Turns (renames : Prop) (instr turned : Instr) : Prop
    extends instr.Narrows turned where
  written : turned.written? = instr.written?
  mark : turned.mark? = instr.mark?
  standing : turned.opcode.isStanding = instr.opcode.isStanding
  keeps : turned.opcode.isStanding = true ∨ turned.opcode = .allocArray → instr.Keeps turned
  steady : renames ∨ turned = instr ∨ instr.opcode.isStanding = false ∧ turned.opcode ≠ .load
  /-- a division of literals by zero stays as it is -/
  fixed : instr.dividesByZero = true → turned = instr

namespace Instr.Turns

variable {renames : Prop} {instr turned : Instr}

theorem refl (instr : Instr) : instr.Turns renames instr where
  toNarrows := .refl instr
  written := rfl
  mark := rfl
  standing := rfl
  keeps _ := .refl instr
  steady := .inr (.inl rfl)
  fixed _ := rfl

theorem trans {other : Instr} (one : instr.Turns renames turned)
    (two : turned.Turns renames other) : instr.Turns renames other where
  toNarrows := one.toNarrows.trans two.toNarrows
  written := two.written.trans one.written
  mark := two.mark.trans one.mark
  standing := two.standing.trans one.standing
  keeps stays := by
    have second := two.keeps stays
    exact (one.keeps (second.opcode ▸ stays)).trans second
  steady := by
    rcases one.steady with renamed | rfl | ⟨loose, other⟩
    · exact .inl renamed
    · exact two.steady
    · rcases two.steady with renamed | rfl | ⟨_, other'⟩
      · exact .inl renamed
      · exact .inr (.inr ⟨loose, other⟩)
      · exact .inr (.inr ⟨loose, other'⟩)
  fixed divides := by
    have same := one.fixed divides
    exact (two.fixed (same ▸ divides)).trans same

theorem of_loose (narrows : instr.Narrows turned) (written : turned.written? = instr.written?)
    (mark : turned.mark? = instr.mark?) (before : instr.opcode.isStanding = false)
    (after : turned.opcode.isStanding = false) (notLoad : turned.opcode ≠ .load)
    (notArray : turned.opcode ≠ .allocArray) (divides : instr.dividesByZero = false) :
    instr.Turns renames turned where
  toNarrows := narrows
  written := written
  mark := mark
  standing := after.trans before.symm
  keeps stays := by
    rcases stays with stands | array
    · rw [after] at stands
      cases stands
    · exact absurd array notArray
  steady := .inr (.inr ⟨before, notLoad⟩)
  fixed zero := by
    rw [divides] at zero
    cases zero

theorem kept (turns : instr.Turns renames turned) (stands : instr.opcode.isStanding = true) :
    instr.Keeps turned :=
  turns.keeps (.inl (turns.standing.trans stands))

end Instr.Turns

theorem Opcode.not_isStanding_of_computes (computes : opcode.computes = true) :
    opcode.isStanding = false := by
  cases opcode <;> first | rfl | cases computes

theorem Opcode.not_isStanding_of_isBranch (branch : opcode.isBranch = true) :
    opcode.isStanding = false := by
  cases opcode <;> first | rfl | cases branch

theorem Opcode.not_divides_of_isBranch (branch : opcode.isBranch = true) :
    opcode.divides = false := by
  cases opcode <;> first | rfl | cases branch

theorem Opcode.isBoundary_of_isBranch (branch : opcode.isBranch = true) :
    opcode.isBoundary = true := by
  cases opcode <;> first | rfl | cases branch

namespace Instr.Recomputes

variable {instr other : Instr} (recomputes : instr.Recomputes other)
include recomputes

theorem turns (renames : Prop) : instr.Turns renames other := by
  cases recomputes with
  | same => exact .refl instr
  | other old new dest notLoad narrows divides =>
    refine .of_loose narrows ?_ ?_ (Opcode.not_isStanding_of_computes old)
      (Opcode.not_isStanding_of_computes new) notLoad (Opcode.ne_of_computes new rfl) divides
    · rw [written?_of_computes old, written?_of_computes new, dest]
    · rw [mark?, mark?, if_neg (Opcode.ne_of_computes old rfl),
        if_neg (Opcode.ne_of_computes new rfl)]

/-- What computes a value jumps nowhere. -/
theorem target?_eq : other.target? = instr.target? := by
  cases recomputes with
  | same => rfl
  | other old new =>
    have straight {opcode : Opcode} (computes : opcode.computes = true) :
        ¬ opcode.isBranch = true := by
      cases opcode <;> first | decide | cases computes
    rw [target?, target?, if_neg (straight old), if_neg (straight new)]

end Instr.Recomputes

/--
The second code is what passes may make of the first one.  Labels are dropped only if they are
free, and jumps go to places that jumps went to from there on.
-/
inductive Trims (renames : Prop) (free : String → Prop) : List Instr → List Instr → Prop where
  | nil : Trims renames free [] []
  | keep {instr turned : Instr} {code trimmed : List Instr} (turns : instr.Turns renames turned)
      (target : turned.target?.toList ⊆ jumpTargets (instr :: code))
      (more : Trims renames free code trimmed) :
      Trims renames free (instr :: code) (turned :: trimmed)
  | drop {instr : Instr} {code trimmed : List Instr} (loose : instr.opcode.isStanding = false)
      (unmarked : ∀ name ∈ instr.mark?, free name) (more : Trims renames free code trimmed) :
      Trims renames free (instr :: code) trimmed

/-- What is no label has no name as one. -/
theorem Instr.unmarked (other : instr.opcode ≠ .label) {free : String → Prop} :
    ∀ name ∈ instr.mark?, free name := by
  simp [mark?, other]

namespace Trims

variable {renames : Prop} {free : String → Prop}

/-- A jump that is kept goes where it went. -/
theorem cons {turned : Instr} (more : Trims renames free code trimmed)
    (turns : instr.Turns renames turned) (target : turned.target? = instr.target?) :
    Trims renames free (instr :: code) (turned :: trimmed) := by
  refine .keep turns ?_ more
  rw [target, jumpTargets_cons]
  exact subset_append_left _ _

theorem refl (code : List Instr) : Trims renames free code code := by
  induction code with
  | nil => exact .nil
  | cons instr rest ih => exact ih.cons (.refl instr) rfl

/-- Jumps go nowhere where none went. -/
theorem targets (trims : Trims renames free code trimmed) :
    jumpTargets trimmed ⊆ jumpTargets code := by
  induction trims with
  | nil => exact List.Subset.refl _
  | keep turns target more ih =>
    rw [jumpTargets_cons]
    refine append_subset.mpr ⟨target, ?_⟩
    rw [jumpTargets_cons]
    exact subset_append_of_subset_right _ ih
  | drop loose unmarked more ih =>
    rw [jumpTargets_cons]
    exact subset_append_of_subset_right _ ih

theorem trans {first second third : List Instr} (one : Trims renames free first second)
    (two : Trims renames free second third) : Trims renames free first third := by
  induction one generalizing third with
  | nil => exact two
  | keep turns target more ih =>
    cases two with
    | keep turns' target' more' =>
      have whole := (Trims.keep turns target more).targets
      exact .keep (turns.trans turns') (List.Subset.trans target' whole) (ih more')
    | drop loose unmarked more' =>
      exact .drop (turns.standing.symm.trans loose) (turns.mark ▸ unmarked) (ih more')
  | drop loose unmarked more ih => exact .drop loose unmarked (ih two)

theorem mono (trims : Trims renames free code trimmed) {free' : String → Prop}
    (freer : ∀ name, free name → free' name) : Trims True free' code trimmed := by
  induction trims with
  | nil => exact .nil
  | keep turns target more ih => exact .keep { turns with steady := .inl trivial } target ih
  | drop loose unmarked more ih =>
    exact .drop loose (fun name mark => freer name (unmarked name mark)) ih

theorem append {first second : List Instr} (one : Trims renames free first second)
    (two : Trims renames free code trimmed) :
    Trims renames free (first ++ code) (second ++ trimmed) := by
  induction one with
  | nil => exact two
  | @keep instr turned front _ turns target more ih =>
    have whole : jumpTargets (instr :: (front ++ code)) =
        jumpTargets (instr :: front) ++ jumpTargets code := jumpTargets_append (instr :: front) code
    exact .keep turns (whole ▸ subset_append_of_subset_left _ target) ih
  | drop loose unmarked more ih => exact .drop loose unmarked ih

theorem of_recomputes (all : Forall₂ Instr.Recomputes code trimmed) :
    Trims renames free code trimmed := by
  induction all with
  | nil => exact .nil
  | cons recomputes more ih => exact ih.cons (recomputes.turns renames) recomputes.target?_eq

theorem filter (dropped : ∀ instr ∈ code, keep instr = false →
      instr.opcode.isStanding = false ∧ ∀ name ∈ instr.mark?, free name) :
    Trims renames free code (code.filter keep) := by
  induction code with
  | nil => exact .nil
  | cons instr rest ih =>
    obtain ⟨here, others⟩ := forall_mem_cons.mp dropped
    cases kept : keep instr with
    | true =>
      rw [filter_cons_of_pos kept]
      exact (ih others).cons (.refl instr) rfl
    | false =>
      rw [filter_cons_of_neg (by rw [kept]; exact Bool.false_ne_true)]
      exact .drop (here kept).1 (here kept).2 (ih others)

end Trims

/-! ## Each of the passes -/

theorem Instr.Droppable.not_isStanding (droppable : instr.Droppable used) :
    instr.opcode.isStanding = false := by
  cases droppable with
  | label opcode | array opcode => rw [opcode]; rfl
  | result opcode _ => exact Opcode.not_isStanding_of_computes opcode

/-- Labels that are gone to stay. -/
theorem Thins.trims {renames : Prop} (thins : Thins used keep code) :
    Trims renames (· ∉ jumpTargets code) code (code.filter keep) := by
  refine .filter fun instr member dropped =>
    ⟨(thins.dropped instr member dropped).not_isStanding, fun name mark wanted => ?_⟩
  obtain ⟨jump, inside, target⟩ := mem_filterMap.mp wanted
  have kept := thins.labels jump inside name target instr member ((instr.marks_iff name).mpr mark)
  rw [dropped] at kept
  cases kept

theorem Operand.narrows_of_isFixed (fixed : value.isFixed = true) (operand : Operand) :
    operand.Narrows value := by
  cases value with
  | temp _ _ | immediate _ _ => exact ⟨nil_subset _, fun _ => rfl⟩
  | _ => cases fixed

theorem Operand.narrows_rename (place : Location) (fixed : value.isFixed = true)
    (operand : Operand) : operand.Narrows (Operand.rename place value operand) := by
  induction operand with
  | element array index type ih =>
    refine ⟨ih.labels, fun flat => ?_⟩
    cases index with
    | element => cases flat
    | _ =>
      simp only [Operand.rename]
      split
      · cases value <;> first | rfl | cases fixed
      · rfl
  | temp _ _ | var _ _ | param _ _ | global _ _ | label _ _ | immediate _ _ =>
    simp only [Operand.rename]
    split
    · exact narrows_of_isFixed fixed _
    · exact .refl _

section

variable {renames : Prop} {free : String → Prop}

theorem Instr.keeps_renameReads (instr : Instr) (place : Location) (value : Operand) :
    instr.Keeps (instr.renameReads place value) where
  opcode := rfl
  label := rfl
  line := rfl
  comment := rfl
  sources := ⟨isSome_map, isSome_map⟩
  dest plain := if_neg plain
  array name index type whole := by
    simp only [renameReads, whole, map_some, Operand.rename]
    split
    · exact ⟨_, rfl⟩
    · exact ⟨_, rfl⟩
  position literal type given := by
    simp only [renameReads, given, map_some, Operand.rename, Operand.location?]
    rfl

theorem Instr.renameReads_of_dividesByZero (divides : instr.dividesByZero = true)
    (place : Location) (value : Operand) : instr.renameReads place value = instr := by
  have plain : instr.opcode ≠ .arrayStore := by
    intro array
    have opcode := divides_of_dividesByZero divides
    rw [array] at opcode
    cases opcode
  have literals (literal : Immediate) (type : DataType) :
      Operand.rename place value (.immediate literal type) = .immediate literal type := if_neg nofun
  obtain ⟨one, two⟩ := map_of_dividesByZero divides literals
  rw [renameReads, one, two, if_neg plain]

theorem Instr.turns_renameReads (renamed : renames) (instr : Instr) (place : Location)
    (fixed : value.isFixed = true) :
    instr.Turns renames (instr.renameReads place value) where
  toNarrows := by
    refine .of_map (Operand.narrows_rename place fixed) rfl rfl ?_ rfl rfl
    unfold renameReads
    split
    · exact .inr rfl
    · exact .inl rfl
  written := by
    have same := Aliases.written?_instr [(place, value)] instr
    exact same
  mark := rfl
  standing := rfl
  keeps _ := instr.keeps_renameReads place value
  steady := .inl renamed
  fixed divides := renameReads_of_dividesByZero divides place value

theorem trims_forwardFrom (renamed : renames) {settle : Instr → Instr}
    (settles : ∀ instr : Instr,
      instr.Turns renames (settle instr) ∧ (settle instr).target? = instr.target?)
    (code : List Instr) : Trims renames free code (forwardFrom settle code).code := by
  fun_induction forwardFrom settle code with
  | case1 => exact .nil
  | case2 settle instr => exact Trims.nil.cons (settles instr).1 (settles instr).2
  | case3 settle store load rest place value found ih =>
    have forwards := Instr.forwards_of_forwarded? found
    have loose : load.opcode.isStanding = false := by
      rw [← (settles load).1.standing, forwards.isLoad]
      rfl
    have unmarked : load.mark? = none := by
      rw [← (settles load).1.mark, Instr.mark?, forwards.isLoad]
      rfl
    refine (Trims.drop loose (by simp [unmarked]) (ih fun instr => ⟨?_, ?_⟩)).cons
      (settles store).1 (settles store).2
    · exact (settles instr).1.trans
        ((settle instr).turns_renameReads renamed place forwards.fixed)
    · exact (settles instr).2
  | case4 settle store load rest none ih =>
    exact (ih settles).cons (settles store).1 (settles store).2

theorem trims_dropIdle (code : List Instr) : Trims renames free code (dropIdle code).code := by
  refine .filter fun instr _ idle => ?_
  have opcode : instr.opcode = .nop ∨ instr.opcode = .move := by
    simp only [Instr.isIdle, Instr.isSelfMove, Bool.not_eq_false', Bool.or_eq_true,
      Bool.and_eq_true, beq_iff_eq] at idle
    exact idle.imp id fun move => move.1.1
  rcases opcode with opcode | opcode <;>
    exact ⟨by rw [opcode]; rfl, Instr.unmarked (by rw [opcode]; decide)⟩

theorem trims_dropShortJumps (code : List Instr) :
    Trims renames free code (dropShortJumps code).code := by
  induction code with
  | nil => exact .nil
  | cons instr rest ih =>
    rw [dropShortJumps_cons]
    split
    · next short =>
        obtain ⟨_, _, _, jump, _⟩ := jumpsTo_head? short
        exact .drop (by rw [jump]; rfl) (Instr.unmarked (by rw [jump]; decide)) ih
    · exact ih.cons (.refl instr) rfl

/-- A turned branch goes where the jump went. -/
theorem Inverts.trims {others : List Instr} (inverts : Inverts code others) :
    Trims renames free code others := by
  induction inverts with
  | nil => exact .nil
  | keep instr more ih => exact ih.cons (.refl instr) rfl
  | @turn branch jump next inverted rest others turned more ih =>
    obtain ⟨opcode, opposite, isJump, _, _, rfl⟩ := inverted?_eq_some turned
    obtain ⟨before, after⟩ := isBranch_of_oppositeBranch? opposite
    have turns : branch.Turns renames { branch with opcode, label := jump.label } := by
      refine .of_loose ⟨List.Subset.refl _, fun whole => ?_⟩ ?_ ?_
        (Opcode.not_isStanding_of_isBranch before) (Opcode.not_isStanding_of_isBranch after) ?_ ?_
        (Instr.not_dividesByZero (Opcode.not_divides_of_isBranch before))
      · have conditional : 0 < branch.opcode.takes ∧ opcode.takes = 1 := by
          revert opposite
          cases branch.opcode <;> rintro ⟨⟩ <;> decide
        refine ⟨fun _ => whole.first conditional.1, fun two => ?_, ?_, whole.flat⟩
        · exact absurd two (conditional.2 ▸ Nat.lt_irrefl 1)
        · rintro rfl
          cases after
      · rw [Instr.written?_of_isBoundary (Opcode.isBoundary_of_isBranch before),
          Instr.written?_of_isBoundary (Opcode.isBoundary_of_isBranch after)]
      · rw [not_mark?_of_isBranch before, not_mark?_of_isBranch after]
      · rintro rfl
        cases after
      · rintro rfl
        cases after
    refine .keep turns ?_ (.drop (by rw [isJump]; rfl) (Instr.unmarked (by rw [isJump]; decide)) ih)
    rw [jumpTargets_cons, jumpTargets_cons]
    simp only [Instr.target?, before, after, isJump, if_true]
    exact subset_append_of_subset_right _ (subset_append_left _ _)

end

theorem Pass.trims (pass : Pass) (code : List Instr) :
    Trims (pass = .loadForwarding) (· ∉ jumpTargets code) code (pass.revise code).code := by
  cases pass with
  | propagation => exact .of_recomputes (Propagation.recomputes_run [] code)
  | folding => exact .of_recomputes (recomputes_foldConstants code)
  | deadCode => exact (thins_isNeeded code).trims
  | loadForwarding => exact trims_forwardFrom rfl (fun instr => ⟨.refl instr, rfl⟩) code
  | labels => exact (thins_isReachableMark code).trims
  | jumps =>
    exact ((trims_dropIdle code).trans (trims_dropShortJumps _)).trans
      (inverts_invertBranches _).trims

/-! ## What follows -/

/--
In front of the code stand so many arguments, with positions from zero on.  Each call has the
arguments that stand directly in front of it, and no argument is without a call.
-/
inductive Passing : Nat → List Instr → List (String × Nat) → Prop where
  | nil : Passing 0 [] []
  | arg {position : Nat} {instr : Instr} {code : List Instr} {calls : List (String × Nat)}
      (opcode : instr.opcode = .arg) (given : instr.src2 = some (.nat position))
      (more : Passing (position + 1) code calls) : Passing position (instr :: code) calls
  | call {position : Nat} {instr : Instr} {callee : String} {code : List Instr}
      {calls : List (String × Nat)} (opcode : instr.opcode = .call)
      (named : instr.label = some callee) (more : Passing 0 code calls) :
      Passing position (instr :: code) ((callee, position) :: calls)
  | other {instr : Instr} {code : List Instr} {calls : List (String × Nat)}
      (notArg : instr.opcode ≠ .arg) (notCall : instr.opcode ≠ .call)
      (more : Passing 0 code calls) : Passing 0 (instr :: code) calls

namespace Trims

variable {renames : Prop} {free : String → Prop} {code trimmed : List Instr}

section

variable (trims : Trims renames free code trimmed)
include trims

theorem length_le : trimmed.length ≤ code.length := by
  induction trims with
  | nil => exact Nat.le_refl _
  | keep _ _ _ ih => exact Nat.succ_le_succ ih
  | drop _ _ _ ih => exact Nat.le_succ_of_le ih

/-- What is kept comes from an instruction that was there. -/
theorem origin : ∀ turned ∈ trimmed, ∃ instr ∈ code, instr.Turns renames turned := by
  induction trims with
  | nil => exact forall_mem_nil _
  | @keep instr turned code trimmed turns target more ih =>
    refine forall_mem_cons.mpr ⟨⟨instr, mem_cons_self .., turns⟩, fun other member => ?_⟩
    obtain ⟨original, there, turns⟩ := ih other member
    exact ⟨original, mem_cons_of_mem _ there, turns⟩
  | drop loose unmarked more ih =>
    intro turned member
    obtain ⟨original, there, turns⟩ := ih turned member
    exact ⟨original, mem_cons_of_mem _ there, turns⟩

/-- Where turning keeps what is read, nothing is made up. -/
theorem sublist_filterMap {α : Type} {read : Instr → Option α}
    (kept : ∀ {instr turned : Instr}, instr.Turns renames turned → read turned = read instr) :
    (trimmed.filterMap read).Sublist (code.filterMap read) := by
  induction trims with
  | nil => exact List.Sublist.refl _
  | keep turns target more ih =>
    rw [filterMap_cons, filterMap_cons, kept turns]
    split
    · exact ih
    · exact ih.cons_cons _
  | drop loose unmarked more ih =>
    rw [filterMap_cons]
    split
    · exact ih
    · exact ih.cons _

theorem marks : (marksOf trimmed).Sublist (marksOf code) :=
  trims.sublist_filterMap Instr.Turns.mark

theorem written : (trimmed.filterMap Instr.written?).Sublist (code.filterMap Instr.written?) :=
  trims.sublist_filterMap Instr.Turns.written

/-- Only free labels are dropped. -/
theorem mem_marks {name : String} (marked : name ∈ marksOf code) (used : ¬ free name) :
    name ∈ marksOf trimmed := by
  induction trims with
  | nil => exact marked
  | keep turns target more ih =>
    rw [marksOf_cons, mem_append] at marked
    rw [marksOf_cons, mem_append, turns.mark]
    exact marked.imp id ih
  | drop loose unmarked more ih =>
    rw [marksOf_cons, mem_append, mem_toList] at marked
    exact ih (marked.resolve_left fun mark => used (unmarked name mark))

/-- Every jump still has its label. -/
theorem landing (used : ∀ name, free name → name ∉ jumpTargets trimmed) (landing : Landing code) :
    Landing trimmed := fun name wanted =>
  trims.mem_marks (landing (trims.targets wanted)) fun unused => used name unused wanted

/-- Arguments and calls stay together. -/
theorem passing {position : Nat} {calls : List (String × Nat)}
    (passing : Passing position code calls) : Passing position trimmed calls := by
  induction trims generalizing position calls with
  | nil => exact passing
  | @keep instr turned code trimmed turns target more ih =>
    cases passing with
    | arg opcode given later =>
      have keeps := turns.kept (by rw [opcode]; rfl)
      exact .arg (keeps.opcode.trans opcode) (keeps.position _ _ given) (ih later)
    | call opcode named later =>
      have keeps := turns.kept (by rw [opcode]; rfl)
      exact .call (keeps.opcode.trans opcode) (keeps.label.trans named) (ih later)
    | other notArg notCall later =>
      have standing := turns.standing
      refine .other ?_ ?_ (ih later)
      · intro opcode
        rw [opcode] at standing
        exact notArg ((turns.kept standing.symm).opcode.symm.trans opcode)
      · intro opcode
        rw [opcode] at standing
        exact notCall ((turns.kept standing.symm).opcode.symm.trans opcode)
  | drop loose unmarked more ih =>
    cases passing with
    | arg opcode | call opcode => rw [opcode] at loose; cases loose
    | other _ _ later => exact ih later

end

theorem head {first : Instr} (trims : Trims renames free (first :: code) trimmed)
    (stands : first.opcode.isStanding = true) :
    ∃ turned rest, trimmed = turned :: rest ∧ turned.opcode = first.opcode := by
  cases trims with
  | keep turns => exact ⟨_, _, rfl, (turns.kept stands).opcode⟩
  | drop loose =>
    rw [stands] at loose
    cases loose

variable (trims : Trims renames free code trimmed)
include trims

theorem last (ends : code.getLast? = some instr) (stands : instr.opcode.isStanding = true) :
    ∃ turned, trimmed.getLast? = some turned ∧ turned.opcode = instr.opcode := by
  induction trims with
  | nil => cases ends
  | @keep first turned code trimmed turns target more ih =>
    cases code with
    | nil =>
      cases more
      obtain rfl : first = instr := Option.some.inj ends
      exact ⟨turned, rfl, (turns.kept stands).opcode⟩
    | cons second code =>
      rw [getLast?_cons_cons] at ends
      obtain ⟨other, ends', same⟩ := ih ends
      refine ⟨other, ?_, same⟩
      rw [getLast?_cons, ends']
      rfl
  | @drop first code trimmed loose unmarked more ih =>
    cases code with
    | nil =>
      obtain rfl : first = instr := Option.some.inj ends
      rw [stands] at loose
      cases loose
    | cons second code =>
      rw [getLast?_cons_cons] at ends
      exact ih ends

/-- What stands is kept, in its order. -/
theorem standing :
    Forall₂ Instr.Keeps (code.filter (·.opcode.isStanding))
      (trimmed.filter (·.opcode.isStanding)) := by
  induction trims with
  | nil => exact .nil
  | keep turns target more ih =>
    rw [filter_cons, filter_cons, turns.standing]
    split
    · next stands => exact .cons (turns.kept stands) ih
    · exact ih
  | drop loose unmarked more ih =>
    rwa [filter_cons_of_neg (by rw [loose]; exact Bool.false_ne_true)]

/-- Nothing is referred to that was not referred to. -/
theorem references : trimmed.flatMap Instr.references ⊆ code.flatMap Instr.references := by
  induction trims with
  | nil => exact List.Subset.refl _
  | keep turns target more ih =>
    rw [flatMap_cons, flatMap_cons]
    exact append_subset.mpr ⟨subset_append_of_subset_left _ turns.references,
      subset_append_of_subset_right _ ih⟩
  | drop loose unmarked more ih =>
    rw [flatMap_cons]
    exact subset_append_of_subset_right _ ih

end Trims

end ArmBackend.Ir
