import ArmBackend.Proofs.Ir.Isolation
import ArmBackend.Proofs.Passes.Sweeps

/-!
# Passes over control flow keep the course of a run

Code of any form, with one label of each name, is run beside the code that is left once unused
labels are dropped and jumps are tidied.  Both carry out the same instructions in the same
states and decide every branch alike, and one of them comes to an end if the other does.
-/

namespace ArmBackend.Ir

open List Option

/-- What is noted of an instruction. -/
inductive Trail where
  | did (instr : Instr) (state : State)
  /-- a conditional branch, by the truth of its condition -/
  | chose (condition : Option Operand) (truth : Bool) (state : State)

namespace Instr

/-- Labels and idle instructions leave everything as it is. -/
def isStill (instr : Instr) : Bool :=
  instr.opcode == .label || instr.isIdle

/-- What is noted of an instruction that runs: nothing of jumps and of what is still. -/
def trail (setting : Setting) (owns : String → Bool) (state : State) (instr : Instr) :
    List Trail :=
  if instr.isStill || instr.opcode == .jump then []
  else if (oppositeBranch? instr.opcode).isSome then
    [.chose instr.src1 (instr.first setting owns state != 0) state]
  else [.did instr state]

end Instr

/-- The trail of a function that runs by itself, whatever its calls do. -/
def Environs.trailing (setting : Setting) (reply : List Trail → Globals → Globals × Word) :
    Environs Trail where
  toSetting := setting
  note := Instr.trail setting
  reply := reply

/-- Both functions leave the same trail and come to the same end; one goes on for ever if the other
does. -/
structure Function.SameCourse (setting : Setting) (reply : List Trail → Globals → Globals × Word)
    (function other : Function) (state : State) : Prop where
  covers : function.Covers (.trailing setting reply) other state
  covered : other.Covers (.trailing setting reply) function state

theorem State.set_get (state : State) (place : Location) :
    state.set place (state.get place) = state := by
  have restored {α : Type} [DecidableEq α] (words : α → Word) (key : α) :
      (fun other => if other = key then words key else words other) = words := by
    funext other
    by_cases same : other = key <;> simp [same]
  cases place <;> simp only [set, get, restored]

variable {instr : Instr} {state : State}

theorem Instr.effect_of_isStill (still : instr.isStill = true) (setting : Setting)
    (owns : String → Bool) (state : State) :
    ∃ events, instr.effect setting owns state = .next state events := by
  rw [isStill, isIdle, Bool.or_eq_true, Bool.or_eq_true] at still
  rcases still with label | nop | selfMove
  · exact ⟨[], by rw [effect, eq_of_beq label]⟩
  · exact ⟨[], by rw [effect, eq_of_beq nop]⟩
  · simp only [isSelfMove, Bool.and_eq_true, beq_iff_eq, decide_eq_true_eq] at selfMove
    obtain ⟨⟨move, named⟩, same⟩ := selfMove
    obtain ⟨place, defined⟩ := isSome_iff_exists.mp named
    obtain ⟨dest, written, spot⟩ := bind_eq_some_iff.mp defined
    obtain ⟨source, read, spot'⟩ := bind_eq_some_iff.mp (same.symm.trans defined)
    have result : instr.result setting owns state = state.get place := by
      simp [Instr.result, move, Opcode.isBinary, Opcode.isComparison, Opcode.onOne, first, read,
        Operand.value_of_location? spot']
    refine ⟨dest.stored setting owns state (state.get place), ?_⟩
    rw [effect_of_givesValue (by rw [move]; rfl), give, written, result]
    dsimp only
    rw [Operand.assign_of_location? spot, State.set_get]

theorem Instr.isStill_of_label (label : instr.opcode = .label) : instr.isStill = true := by
  rw [isStill, label]
  rfl

/-! ## Code that is tracked -/

section

variable {setting : Setting} {reply : List Trail → Globals → Globals × Word}
  {function other : Function} {rel : List Instr → List Instr → Prop} {rest rest' : List Instr}
  {first second : Standing Trail}

theorem Glides.lingers {later : List Instr} (glides : Glides function rest later)
    (state : State) (notes : List Trail) :
    function.Lingers (.trailing setting reply) (.running rest state notes)
      (.running later state notes) := by
  have still {instr : Instr} (still : instr.isStill = true) (rest : List Instr) :
      function.stepAlone (.trailing setting reply) (.running (instr :: rest) state notes) =
        .running rest state notes := by
    obtain ⟨events, effect⟩ := Instr.effect_of_isStill still setting function.owns state
    simp [Function.stepAlone, Environs.trailing, effect, Instr.trail, still, Function.perform]
  induction glides with
  | refl rest => exact .refl _ _ _
  | label opcode _ ih => exact .step (still (Instr.isStill_of_label opcode) _) ih rfl
  | idle _ idle _ ih => exact .step (still (by rw [Instr.isStill, idle, Bool.or_true]) _) ih rfl
  | jump opcode lands _ ih =>
    refine .step ?_ ih rfl
    simp [Function.stepAlone, Environs.trailing, Instr.effect, Instr.trail, opcode, lands,
      Function.perform]

/-- Stages of two runs that leave the same trail. -/
inductive Abreast (function other : Function) (rel : List Instr → List Instr → Prop) :
    Standing Trail → Standing Trail → Prop where
  | running {rest rest' : List Instr} (joins : Joins function other rel rest rest') (state : State)
      (notes : List Trail) : Abreast function other rel (.running rest state notes)
        (.running rest' state notes)
  | left (value : Option Word) (globals : Globals) (notes : List Trail) :
      Abreast function other rel (.left value globals notes) (.left value globals notes)
  | stuck (notes : List Trail) : Abreast function other rel (.stuck notes) (.stuck notes)

theorem Abreast.of_rel (related : rel rest rest') (state : State) (notes : List Trail) :
    Abreast function other rel (.running rest state notes) (.running rest' state notes) :=
  .running (.of_rel related) state notes

theorem Abreast.view_eq (abreast : Abreast function other rel first second) :
    second.view = first.view := by
  cases abreast <;> rfl

/-- A branch and its opposite leave the same trail. -/
theorem Instr.trail_opposite {branch : Instr} {opcode : Opcode}
    (opposite : oppositeBranch? branch.opcode = some opcode) (label : Option String)
    (setting : Setting) (owns : String → Bool) (state : State) :
    trail setting owns state { branch with opcode, label } = branch.trail setting owns state := by
  cases kind : branch.opcode <;> rw [kind] at opposite <;> cases opposite <;>
    simp [trail, isStill, isIdle, isSelfMove, kind, first, oppositeBranch?]

theorem Heads.step (owns : other.owns = function.owns)
    (heads : Heads function other rel rest rest') (state : State) (notes : List Trail) :
    Abreast function other rel
      (function.stepAlone (.trailing setting reply) (.running rest state notes))
      (other.stepAlone (.trailing setting reply) (.running rest' state notes)) := by
  cases heads with
  | nil => exact .left none state.globals notes
  | @same instr _ _ _ more targets =>
    have accords := instr.accords_effect setting function.owns state
    simp only [Function.stepAlone, owns]
    cases effect : instr.effect setting function.owns state with
    | next next events =>
      simp only [Environs.trailing, effect]
      exact .of_rel more next _
    | leave value =>
      simp only [Environs.trailing, effect]
      exact .left value state.globals _
    | call callee dest =>
      simp only [Environs.trailing, effect]
      cases callee with
      | none => exact .stuck _
      | some callee =>
        simp only [Function.perform, owns]
        exact .of_rel more _ _
    | jump label =>
      simp only [Environs.trailing, effect, Function.perform]
      rw [effect] at accords
      obtain ⟨branch, rfl⟩ := accords
      have meets := targets branch
      unfold TargetsMeet at meets
      revert meets
      cases function.target? instr.label <;> cases other.target? instr.label <;> intro meets
      · exact .stuck _
      · exact meets.elim
      · exact meets.elim
      · exact .of_rel meets state _
  | @turned branch opcode label rest rest' target target' opposite lands lands' taken falls =>
    have trail := Instr.trail_opposite opposite label setting function.owns state
    rcases effect_opposite opposite label setting function.owns state with
      ⟨goes, stays⟩ | ⟨stays, goes⟩
    · simp only [Function.stepAlone, Environs.trailing, owns, goes, stays, trail,
        Function.perform, lands]
      exact .running taken state _
    · simp only [Function.stepAlone, Environs.trailing, owns, goes, stays, trail,
        Function.perform, lands']
      exact .running falls state _

theorem Tracks.round (tracks : Tracks function other rel)
    (abreast : Abreast function other rel first second) :
    ∃ third fourth, function.Lingers (.trailing setting reply) first third ∧
      other.Lingers (.trailing setting reply) second fourth ∧
      Abreast function other rel (function.stepAlone (.trailing setting reply) third)
        (other.stepAlone (.trailing setting reply) fourth) := by
  cases abreast with
  | left value globals notes => exact ⟨_, _, .refl _ _ _, .refl _ _ _, .left value globals notes⟩
  | stuck notes => exact ⟨_, _, .refl _ _ _, .refl _ _ _, .stuck notes⟩
  | running joins state notes =>
    obtain ⟨head, head', glides, glides', heads⟩ := tracks.heads joins
    exact ⟨_, _, glides.lingers state notes, glides'.lingers state notes,
      heads.step tracks.owns state notes⟩

theorem Tracks.sameCourse (tracks : Tracks function other rel) (setting : Setting)
    (reply : List Trail → Globals → Globals × Word) (state : State) :
    function.SameCourse setting reply other state := by
  have start : Abreast function other rel (.running function.code state [])
      (.running other.code state []) := .of_rel tracks.start state []
  constructor
  · exact Function.covers_of_rounds (Abreast function other rel) Abreast.view_eq tracks.round start
  · refine Function.covers_of_rounds (fun second first => Abreast function other rel first second)
      (fun abreast => abreast.view_eq.symm) (fun abreast => ?_) start
    obtain ⟨third, fourth, lingers, lingers', next⟩ := tracks.round abreast
    exact ⟨fourth, third, lingers', lingers, next⟩

end

/-! ## The passes -/

section

variable {function : Function}

theorem Instr.not_alloc_of_isStill (still : instr.isStill = true) :
    (instr.opcode == .allocArray) = false := by
  rw [isStill, isIdle, isSelfMove] at still
  cases opcode : instr.opcode <;> rw [opcode] at still <;> first | rfl | cases still

theorem tracks_filter {keep : Instr → Bool}
    (dropped : ∀ instr, keep instr = false → instr.isStill = true)
    (kept : ∀ instr ∈ function.code, ∀ name ∈ instr.target?, ∀ label ∈ function.code,
      label.marks name = true → keep label = true) :
    Tracks function { function with code := function.code.filter keep } fun rest rest' =>
      rest <:+ function.code ∧ rest' = rest.filter keep where
  owns := by
    funext array
    rw [Function.owns, Function.owns]
    dsimp only
    rw [List.any_filter]
    congr 1
    funext instr
    cases keeps : keep instr with
    | true => rfl
    | false =>
      rw [Instr.not_alloc_of_isStill (dropped instr keeps)]
      rfl
  start := ⟨suffix_refl _, rfl⟩
  advance := by
    rintro rest _ ⟨inside, rfl⟩
    induction rest with
    | nil => exact .of_rel .nil
    | cons instr rest ih =>
      have later := (suffix_cons instr rest).trans inside
      have member := inside.mem (mem_cons_self ..)
      cases keeps : keep instr with
      | false =>
        rw [filter_cons_of_neg (by rw [keeps]; decide)]
        obtain ⟨head, head', glides, glides', heads⟩ := ih later
        refine ⟨head, head', ?_, glides', heads⟩
        rcases Bool.or_eq_true_iff.mp (dropped instr keeps) with label | idle
        · exact .label (eq_of_beq label) glides
        · exact .idle member idle glides
      | true =>
        rw [filter_cons_of_pos keeps]
        refine .of_rel (.same member ⟨later, rfl⟩ fun branch => ?_)
        cases named : instr.label with
        | none => trivial
        | some name =>
          have gone : instr.target? = some name := by rw [Instr.target?, if_pos branch, named]
          rw [Function.target?, Function.target?, bind_some, bind_some,
            afterLabel_filter (kept instr member name gone)]
          exact .map fun target found => ⟨afterLabel_suffix found, rfl⟩

theorem tracks_dropUnusedLabels (function : Function) :
    Tracks function { function with code := (dropUnusedLabels function.code).code }
      fun rest rest' => rest <:+ function.code ∧
        rest' = rest.filter (Instr.isReachableMark (jumpTargets function.code)) := by
  refine tracks_filter (fun instr dropped => ?_) (thins_isReachableMark function.code).labels
  simp only [Instr.isReachableMark, Bool.or_eq_false_iff, bne_eq_false_iff_eq] at dropped
  exact Instr.isStill_of_label dropped.1

theorem tracks_dropIdle (function : Function) :
    Tracks function { function with code := (dropIdle function.code).code }
      fun rest rest' => rest <:+ function.code ∧ rest' = rest.filter fun instr => !instr.isIdle := by
  refine tracks_filter (fun instr dropped => ?_) fun _ _ name _ label _ marks => ?_
  · rw [Bool.not_eq_false'] at dropped
    rw [Instr.isStill, dropped, Bool.or_true]
  · rw [Instr.isIdle, Instr.isSelfMove, Instr.opcode_of_marks marks]
    rfl

theorem dropShortJumps_subset (code : List Instr) : (dropShortJumps code).code ⊆ code := by
  induction code with
  | nil => exact List.Subset.refl _
  | cons instr rest ih =>
    rw [dropShortJumps_cons]
    split
    · exact subset_cons_of_subset _ ih
    · exact cons_subset_cons _ ih

theorem Function.SameCourse.trans {setting : Setting}
    {reply : List Trail → Globals → Globals × Word} {first second third : Function}
    (one : first.SameCourse setting reply second state)
    (two : second.SameCourse setting reply third state) :
    first.SameCourse setting reply third state :=
  ⟨one.covers.trans two.covers, two.covered.trans one.covered⟩

section

variable (function : Function) (distinct : (marksOf function.code).Nodup)
  (names : NamesEdges function.code)
include distinct names

variable (landing : Landing function.code)
include landing

/-- Tidying jumps keeps the course of a run. -/
theorem sameCourse_tidyJumps (setting : Setting) (reply : List Trail → Globals → Globals × Word)
    (state : State) :
    function.SameCourse setting reply
      { function with code := (tidyJumps function.code).code } state := by
  have idle : Trims False (fun _ => False) function.code _ := trims_dropIdle function.code
  have short : Trims False (fun _ => False) _ _ := trims_dropShortJumps (dropIdle function.code).code
  have names : NamesEdges (dropIdle function.code).code :=
    fun instr member => names instr (mem_of_mem_filter member)
  have one := (tracks_dropIdle function).sameCourse setting reply state
  have two := (tracks_dropShortJumps { function with code := (dropIdle function.code).code }
    (distinct.sublist idle.marks) names).sameCourse setting reply state
  have three := (tracks_invertBranches
    { function with code := (dropShortJumps (dropIdle function.code).code).code }
    (distinct.sublist (short.marks.trans idle.marks))
    (fun instr member => names instr (dropShortJumps_subset _ member))
    (short.landing nofun (idle.landing nofun landing))).sameCourse setting reply state
  exact (one.trans two).trans three

end

/-- The function never ends. -/
def Function.Diverges {Note : Type} (around : Environs Note) (function : Function)
    (state : State) : Prop :=
  ∀ count, (function.runAlone around state count).view.2 = none

theorem Function.Covers.diverges {Note : Type} {around : Environs Note} {other : Function}
    (covers : function.Covers around other state) (diverges : other.Diverges around state) :
    function.Diverges around state := by
  intro count
  obtain ⟨count', same⟩ := covers count
  rw [← same]
  exact diverges count'

/--
Dropping unused labels and tidying jumps keep the targets of jumps and the course of every run, in
code of any form in which labels are told apart and every jump has one to go to.
-/
theorem sameCourse_after_jumps (distinct : (marksOf function.code).Nodup)
    (names : NamesEdges function.code) (landing : Landing function.code) :
    Landing (function.after [.labels, .jumps]).code ∧ ∀ setting reply state,
      function.SameCourse setting reply (function.after [.labels, .jumps]) state ∧
        ((function.after [.labels, .jumps]).Diverges (.trailing setting reply) state ↔
          function.Diverges (.trailing setting reply) state) := by
  have unused := Pass.labels.trims function.code
  refine ⟨(function.keepsLanding_after [.labels, .jumps]).landing landing, fun setting reply state => ?_⟩
  have one := (tracks_dropUnusedLabels function).sameCourse setting reply state
  have two := sameCourse_tidyJumps (function.after [.labels]) (distinct.sublist unused.marks)
    (fun instr member => names instr (List.mem_of_mem_filter member))
    ((function.keepsLanding_after [.labels]).landing landing) setting reply state
  have both := one.trans two
  exact ⟨both, both.covers.diverges, both.covered.diverges⟩

/-- A loop with a branch around a jump, a label that two jumps share, and idle instructions. -/
def spin : Function where
  name := "spin"
  code :=
    [.mark "top",
      .move (.temp "t0" .int) (.temp "t0" .int),
      .jumpIf true (.var "go" .int) "on",
      .jump "out",
      .mark "on",
      .store (.var "go" .int) (.global "next" .int),
      .jump "top",
      .mark "unused",
      .mark "out",
      .jumpIf false (.var "again" .int) "last",
      .jump "top",
      .mark "last"]

theorem sameCourse_spin :
    ((marksOf spin.code).Nodup ∧ NamesEdges spin.code ∧ Landing spin.code) ∧
      (spin.after [.labels, .jumps]).code =
        [.mark "top",
          .jumpIf false (.var "go" .int) "out",
          .mark "on",
          .store (.var "go" .int) (.global "next" .int),
          .jump "top",
          .mark "out",
          .jumpIf true (.var "again" .int) "top",
          .mark "last"] ∧
      Landing (spin.after [.labels, .jumps]).code ∧ ∀ setting reply state,
        spin.SameCourse setting reply (spin.after [.labels, .jumps]) state ∧
          ((spin.after [.labels, .jumps]).Diverges (.trailing setting reply) state ↔
            spin.Diverges (.trailing setting reply) state) := by
  have distinct : (marksOf spin.code).Nodup := by decide
  have names : NamesEdges spin.code := by unfold NamesEdges; decide
  have landing : Landing spin.code := by unfold Landing; decide
  exact ⟨⟨distinct, names, landing⟩, by decide, sameCourse_after_jumps distinct names landing⟩

end

end ArmBackend.Ir
