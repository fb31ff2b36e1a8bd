import ArmBackend.Ir.Pass.Jumps
import ArmBackend.Proofs.Passes.Regular

/-!
# Tidying jumps keeps the run

Regular code has no idle instructions.  Where no label stands twice, a jump to the label
behind it goes there, and a branch around a jump goes where the opposite branch goes.
-/

namespace ArmBackend.Ir

open List Option

section

variable {scan : Scan} {instr : Instr}

/-- No instruction of regular code is idle. -/
theorem Instr.Regular.not_isIdle (regular : instr.Regular scan) : instr.isIdle = false := by
  cases idle : instr.isIdle with
  | false => rfl
  | true =>
    rw [isIdle, Bool.or_eq_true] at idle
    rcases idle with nop | selfMove
    · cases regular.formed with
      | computes _ opcode | plain opcode | stores _ opcode | fills _ _ _ opcode
      | reserves _ _ opcode | calls opcode | passes opcode =>
        rw [eq_of_beq nop] at opcode
        cases opcode
    · simp only [isSelfMove, Bool.and_eq_true, beq_iff_eq, decide_eq_true_eq] at selfMove
      obtain ⟨⟨move, _⟩, same⟩ := selfMove
      obtain ⟨dest, written, fresh⟩ := regular.formed.of_computes (by rw [move]; rfl)
      obtain ⟨name, named, unwritten⟩ := fresh.location?
      rw [defined, written, bind_some, named] at same
      obtain ⟨source, read, place⟩ := bind_eq_some_iff.mp same.symm
      -- The source would be a temporary that is written here for the first time.
      have ready := regular.inputs source (mem_inputs_of_src1 read)
      cases source <;> cases place
      exact absurd (unwritten.symm.trans ready.2) (by simp)

variable {code : List Instr}

theorem Regular.not_isIdle (regular : Regular scan code) :
    ∀ instr ∈ code, instr.isIdle = false := by
  intro instr member
  obtain ⟨scan', here⟩ := regular.of_mem instr member
  exact here.not_isIdle

theorem Regular.dropIdle_code (regular : Regular scan code) :
    (dropIdle code).code = code := by
  refine filter_eq_self.mpr ?_
  intro instr member
  rw [regular.not_isIdle instr member]
  rfl

/-- Labels have names, and branches have targets. -/
theorem Instr.Formed.named (formed : instr.Formed scan)
    (boundary : instr.opcode.isBoundary = true) : instr.label.isSome = true := by
  cases formed with
  | plain _ _ named => exact named boundary
  | computes _ opcode =>
    rw [Opcode.not_isBoundary_of_computes opcode] at boundary
    cases boundary
  | stores _ opcode | fills _ _ _ opcode | reserves _ _ opcode | calls opcode | passes opcode =>
    rw [opcode] at boundary
    cases boundary

theorem Scan.after_of_isBranch (branch : instr.opcode.isBranch = true) :
    scan.after instr = scan.cut := by
  refine if_pos ?_
  revert branch
  cases instr.opcode <;> decide

end

section

variable {scan other : Scan} (types : other.types = scan.types) (strict : other.strict = scan.strict)
  (ready : ∀ name, scan.ready name → other.ready name)
include types strict ready

theorem Operand.Regular.mono {operand : Operand} (regular : operand.Regular scan) :
    operand.Regular other := by
  induction operand with
  | temp name type => exact ⟨ready name regular.1, types ▸ regular.2⟩
  | element array index type ih => exact ih regular
  | immediate value type => exact fun strictly => regular (strict ▸ strictly)
  | var name type | param name type | global name type | label name type =>
    intro strictly place named
    rw [types]
    exact regular (strict ▸ strictly) place named

theorem Regular.mono {code : List Instr} (regular : Regular scan code) : Regular other code := by
  induction code generalizing scan other with
  | nil => trivial
  | cons instr rest ih =>
    refine ⟨⟨?_, fun operand member => (regular.1.inputs operand member).mono types strict ready,
      fun strictly => regular.1.typed (strict ▸ strictly)⟩, ih ?_ ?_ ?_ regular.2⟩
    · have fresh {dest : Operand} (fresh : Instr.Fresh scan dest) : Instr.Fresh other dest := by
        obtain ⟨name, type, rfl, unwritten⟩ := fresh
        exact ⟨name, type, rfl, types ▸ unwritten⟩
      exact regular.1.formed.mono fresh
    · funext place
      rw [Scan.types_after, Scan.types_after, types]
    · rw [Scan.strict_after, Scan.strict_after, strict]
    · intro name
      cases boundary : instr.opcode.isBoundary with
      | true =>
        rw [Scan.after, if_pos boundary]
        exact False.elim
      | false =>
        rw [Scan.ready_after boundary, Scan.ready_after boundary]
        exact Or.imp id (ready name)

end

variable {scan : Scan} {code others : List Instr} {name : String} {other : Function}

theorem Regular.of_cut (regular : Regular scan.cut code) :
    Regular scan code := by
  have ready : ∀ name, scan.cut.ready name → scan.ready name := fun _ => False.elim
  refine Regular.mono ?_ ?_ ready regular <;> rfl

theorem dropShortJumps_cons (instr : Instr) (rest : List Instr) :
    (dropShortJumps (instr :: rest)).code =
      if rest.head?.any instr.jumpsTo then (dropShortJumps rest).code
      else instr :: (dropShortJumps rest).code := by
  cases rest with
  | nil => rfl
  | cons next rest =>
    have head : (next :: rest).head?.any instr.jumpsTo = instr.jumpsTo next := rfl
    rw [dropShortJumps, head]
    split <;> rfl

variable {function : Function} {instr branch : Instr} {opcode : Opcode}

theorem jumpsTo_head? {rest : List Instr} (short : rest.head?.any instr.jumpsTo = true) :
    ∃ next more, rest = next :: more ∧ instr.opcode = .jump ∧ next.opcode = .label ∧
      instr.label = next.label := by
  cases rest with
  | nil => cases short
  | cons next more =>
    simp only [head?_cons, any_some, Instr.jumpsTo, Bool.and_eq_true,
      beq_iff_eq] at short
    exact ⟨next, more, rfl, short.1.1, short.1.2, short.2⟩

theorem not_marks_of_opcode (label : instr.opcode ≠ .label) (name : String) :
    instr.marks name = false := by
  rw [Instr.marks, beq_false_of_ne label]
  rfl

theorem afterLabel_dropShortJumps (name : String) (code : List Instr) :
    afterLabel name (dropShortJumps code).code =
      (afterLabel name code).map fun target => (dropShortJumps target).code := by
  induction code with
  | nil => rfl
  | cons instr rest ih =>
    rw [dropShortJumps_cons, afterLabel]
    split
    · next short =>
        obtain ⟨_, _, _, jump, _⟩ := jumpsTo_head? short
        rw [not_marks_of_opcode (by rw [jump]; decide), ih]
        rfl
    · rw [afterLabel, ih]
      split <;> rfl

theorem Regular.dropShortJumps (regular : Regular scan code) :
    Regular scan (dropShortJumps code).code := by
  induction code generalizing scan with
  | nil => trivial
  | cons instr rest ih =>
    rw [dropShortJumps_cons]
    split
    · next short =>
        obtain ⟨_, _, _, jump, _⟩ := jumpsTo_head? short
        have later := ih regular.2
        rw [Scan.after_of_isBranch (by rw [jump]; rfl)] at later
        exact later.of_cut
    · exact ⟨regular.1, ih regular.2⟩

theorem owns_dropShortJumps (function : Function) :
    { function with code := (dropShortJumps function.code).code }.owns = function.owns := by
  funext array
  rw [Function.owns, Function.owns]
  dsimp only
  induction function.code with
  | nil => rfl
  | cons instr rest ih =>
    rw [dropShortJumps_cons, any_cons]
    split
    · next short =>
        obtain ⟨_, _, _, jump, _⟩ := jumpsTo_head? short
        rw [ih, jump]
        rfl
    · rw [any_cons, ih]

theorem targets_dropShortJumps (function : Function) (label : Option String) :
    TargetsMeet (fun target target' => target <:+ function.code ∧
        target' = (dropShortJumps target).code) (function.target? label)
      ({ function with code := (dropShortJumps function.code).code }.target? label) := by
  cases label with
  | none => trivial
  | some name =>
    rw [Function.target?, Function.target?, bind_some, bind_some,
      afterLabel_dropShortJumps]
    exact .map fun target found => ⟨afterLabel_suffix found, rfl⟩

/-- A jump to a label goes behind it. -/
theorem target?_of_nodup (distinct : (marksOf function.code).Nodup) {label : Instr}
    {after : List Instr} (inside : label :: after <:+ function.code)
    (opcode : label.opcode = .label) (named : label.label = some name) :
    function.target? (some name) = some after :=
  afterLabel_of_nodup distinct inside (by simp [Instr.marks, opcode, named])

theorem inverted?_eq_some {jump next inverted : Instr}
    (turned : branch.inverted? jump next = some inverted) :
    ∃ opcode, Instr.oppositeBranch? branch.opcode = some opcode ∧ jump.opcode = .jump ∧
      next.opcode = .label ∧ branch.label = next.label ∧
      inverted = { branch with opcode, label := jump.label } := by
  unfold Instr.inverted? at turned
  split at turned
  · next opcode opposite =>
      split at turned
      · next around =>
          cases turned
          exact ⟨opcode, opposite, around.1, around.2.1, around.2.2, rfl⟩
      · cases turned
  · cases turned

/-- The second code is the first one with some branches turned around. -/
inductive Inverts : List Instr → List Instr → Prop where
  | nil : Inverts [] []
  | keep (instr : Instr) {rest others : List Instr} (more : Inverts rest others) :
      Inverts (instr :: rest) (instr :: others)
  | turn {branch jump next inverted : Instr} {rest others : List Instr}
      (turned : branch.inverted? jump next = some inverted)
      (more : Inverts (next :: rest) others) :
      Inverts (branch :: jump :: next :: rest) (inverted :: others)

theorem inverts_refl (code : List Instr) : Inverts code code := by
  induction code with
  | nil => exact .nil
  | cons instr rest ih => exact .keep instr ih

theorem inverts_invertBranches (code : List Instr) : Inverts code (invertBranches code).code := by
  induction code using invertBranches.induct with
  | case1 branch jump next rest inverted turned ih =>
    rw [invertBranches, turned]
    exact .turn turned ih
  | case2 branch jump next rest stays ih =>
    rw [invertBranches, stays]
    exact .keep branch ih
  | case3 code short =>
    have same : (invertBranches code).code = code := by
      unfold invertBranches
      split
      · exact (short _ _ _ _ rfl).elim
      · rfl
    rw [same]
    exact inverts_refl code

/-- A branch and the opposite branch. -/
theorem isBranch_of_oppositeBranch? {opposite : Opcode}
    (turned : Instr.oppositeBranch? opcode = some opposite) :
    opcode.isBranch = true ∧ opposite.isBranch = true := by
  cases opcode <;> cases turned <;> exact ⟨rfl, rfl⟩

theorem not_mark?_of_isBranch (branch : instr.opcode.isBranch = true) : instr.mark? = none := by
  rw [Instr.mark?, if_neg]
  intro label
  rw [label] at branch
  cases branch

theorem Inverts.owns (inverts : Inverts function.code other.code) :
    other.owns = function.owns := by
  funext array
  rw [Function.owns, Function.owns]
  generalize function.code = code at inverts
  generalize other.code = others at inverts
  induction inverts with
  | nil => rfl
  | keep instr _ ih => rw [any_cons, any_cons, ih]
  | turn turned _ ih =>
    obtain ⟨opcode, opposite, jump, _, _, rfl⟩ := inverted?_eq_some turned
    have alloc {opcode : Opcode} (branch : opcode.isBranch = true) :
        (opcode == .allocArray) = false := by
      cases opcode <;> first | rfl | cases branch
    obtain ⟨one, two⟩ := isBranch_of_oppositeBranch? opposite
    rw [any_cons, any_cons, any_cons, ih, alloc one, alloc two,
      alloc (by rw [jump]; rfl)]
    rfl

theorem afterLabel_of_isBranch (branch : instr.opcode.isBranch = true) (rest : List Instr)
    (name : String) : afterLabel name (instr :: rest) = afterLabel name rest := by
  rw [afterLabel, not_marks_of_opcode (by intro label; rw [label] at branch; cases branch)]
  rfl

theorem Inverts.afterLabel (inverts : Inverts code others) (name : String) :
    TargetsMeet Inverts (afterLabel name code) (afterLabel name others) := by
  induction inverts with
  | nil => trivial
  | keep instr more ih =>
    rw [Ir.afterLabel, Ir.afterLabel]
    split
    · exact more
    · exact ih
  | @turn branch jump next _ rest others turned _ ih =>
    obtain ⟨opcode, opposite, isJump, _, _, rfl⟩ := inverted?_eq_some turned
    obtain ⟨one, two⟩ := isBranch_of_oppositeBranch? opposite
    have skip : Ir.afterLabel name ({ branch with opcode, label := jump.label } :: others) =
        Ir.afterLabel name others := afterLabel_of_isBranch two others name
    rw [skip, afterLabel_of_isBranch one, afterLabel_of_isBranch (by rw [isJump]; rfl)]
    exact ih

theorem Instr.Regular.invert (regular : branch.Regular scan)
    (opposite : oppositeBranch? branch.opcode = some opcode) {label : Option String}
    (named : label.isSome = true) : Instr.Regular scan { branch with opcode, label } := by
  have plain : branch.opcode.givesNothing = true ∧ opcode.givesNothing = true ∧
      opcode ≠ .arrayStore ∧ branch.opcode ≠ .arrayStore := by
    revert opposite
    cases branch.opcode <;> intro opposite <;> cases opposite <;> decide
  obtain ⟨old, new, store, store'⟩ := plain
  refine ⟨.plain new ?_ fun _ => named, ?_, ?_⟩
  · cases regular.formed with
    | plain _ written => exact written
    | computes _ opcode =>
      rw [Opcode.not_givesNothing_of_computes opcode] at old
      cases old
    | stores _ opcode | fills _ _ _ opcode | reserves _ _ opcode | calls opcode | passes opcode =>
      rw [opcode] at old
      cases old
  · intro operand member
    refine regular.inputs operand ?_
    rw [Instr.inputs, if_neg store] at member
    rw [Instr.inputs, if_neg store']
    exact member
  · intro _
    rw [isTyped]
    revert opposite
    cases branch.opcode <;> intro opposite <;> cases opposite <;> rfl

theorem Inverts.regular (inverts : Inverts code others)
    (regular : Regular scan code) : Regular scan others := by
  induction inverts generalizing scan with
  | nil => trivial
  | keep instr _ ih => exact ⟨regular.1, ih regular.2⟩
  | turn turned _ ih =>
    obtain ⟨opcode, opposite, jump, _, _, rfl⟩ := inverted?_eq_some turned
    obtain ⟨one, two⟩ := isBranch_of_oppositeBranch? opposite
    have later := regular.2.2
    rw [Scan.after_of_isBranch one, Scan.after_of_isBranch (by rw [jump]; rfl)] at later
    refine ⟨regular.1.invert opposite (regular.2.1.formed.named (by rw [jump]; rfl)), ?_⟩
    rw [Scan.after_of_isBranch two]
    exact ih later

theorem effect_opposite (opposite : Instr.oppositeBranch? branch.opcode = some opcode)
    (label : Option String) (setting : Setting) (owns : String → Bool) (state : State) :
    (branch.effect setting owns state = .jump branch.label ∧
      Instr.effect setting owns state { branch with opcode, label } = .next state []) ∨
    (branch.effect setting owns state = .next state [] ∧
      Instr.effect setting owns state { branch with opcode, label } = .jump label) := by
  have same : Instr.first setting owns state { branch with opcode, label } =
      branch.first setting owns state := rfl
  rw [Instr.effect, Instr.effect, same]
  by_cases zero : branch.first setting owns state = 0
  · cases kind : branch.opcode <;> rw [kind] at opposite <;> cases opposite
    · exact .inr ⟨if_pos zero, if_pos zero⟩
    · exact .inl ⟨if_pos zero, if_pos zero⟩
  · cases kind : branch.opcode <;> rw [kind] at opposite <;> cases opposite
    · exact .inl ⟨if_neg zero, if_neg zero⟩
    · exact .inr ⟨if_neg zero, if_neg zero⟩

theorem Inverts.targets (inverts : Inverts function.code other.code) (label : Option String) :
    TargetsMeet (fun target target' => target <:+ function.code ∧ Inverts target target')
      (function.target? label) (other.target? label) := by
  cases label with
  | none => trivial
  | some name =>
    have meets := inverts.afterLabel name
    rw [Function.target?, Function.target?, bind_some, bind_some]
    unfold TargetsMeet at meets ⊢
    revert meets
    cases found : Ir.afterLabel name function.code <;>
      cases Ir.afterLabel name other.code <;> intro meets
    · trivial
    · exact meets
    · exact meets
    · exact ⟨afterLabel_suffix found, meets⟩

/-! ## Code that is tracked -/

/-- Labels, idle instructions and jumps lead from the first code to the second. -/
inductive Glides (function : Function) : List Instr → List Instr → Prop where
  | refl (rest : List Instr) : Glides function rest rest
  | label {instr : Instr} {rest later : List Instr} (opcode : instr.opcode = .label)
      (more : Glides function rest later) : Glides function (instr :: rest) later
  | idle {instr : Instr} {rest later : List Instr} (member : instr ∈ function.code)
      (idle : instr.isIdle = true) (more : Glides function rest later) :
      Glides function (instr :: rest) later
  | jump {instr : Instr} {rest target later : List Instr} (opcode : instr.opcode = .jump)
      (lands : function.target? instr.label = some target) (more : Glides function target later) :
      Glides function (instr :: rest) later

theorem Glides.trans {function : Function} {first second third : List Instr}
    (one : Glides function first second) (two : Glides function second third) :
    Glides function first third := by
  induction one with
  | refl rest => exact two
  | label opcode _ ih => exact .label opcode (ih two)
  | idle member idle _ ih => exact .idle member idle (ih two)
  | jump opcode lands _ ih => exact .jump opcode lands (ih two)

section

variable (function other : Function) (rel : List Instr → List Instr → Prop)

/-- The functions glide from such code to related code. -/
def Joins (rest rest' : List Instr) : Prop :=
  ∃ later later', Glides function rest later ∧ Glides other rest' later' ∧ rel later later'

/-- Both are at their end, at the same instruction, or at a branch and its opposite. -/
inductive Heads : List Instr → List Instr → Prop where
  | nil : Heads [] []
  | same {instr : Instr} {rest rest' : List Instr} (member : instr ∈ function.code)
      (more : rel rest rest')
      (targets : instr.opcode.isBranch = true →
        TargetsMeet rel (function.target? instr.label) (other.target? instr.label)) :
      Heads (instr :: rest) (instr :: rest')
  | turned {branch : Instr} {opcode : Opcode} {label : Option String}
      {rest rest' target target' : List Instr}
      (opposite : Instr.oppositeBranch? branch.opcode = some opcode)
      (lands : function.target? branch.label = some target)
      (lands' : other.target? label = some target')
      (taken : Joins function other rel target rest')
      (falls : Joins function other rel rest target') :
      Heads (branch :: rest) ({ branch with opcode, label } :: rest')

/-- The second function can be run beside the first, along related code. -/
structure Tracks : Prop where
  owns : other.owns = function.owns
  start : rel function.code other.code
  advance : ∀ {rest rest'}, rel rest rest' → Joins function other (Heads function other rel) rest rest'

end

section

variable {other : Function} {rel : List Instr → List Instr → Prop} {rest rest' : List Instr}
  {scan : Scan}

/-- Joined code goes on to a point where both carry out the same instruction. -/
theorem Tracks.heads (tracks : Tracks function other rel)
    (joins : Joins function other rel rest rest') :
    Joins function other (Heads function other rel) rest rest' := by
  obtain ⟨later, later', glides, glides', related⟩ := joins
  obtain ⟨head, head', more, more', heads⟩ := tracks.advance related
  exact ⟨head, head', glides.trans more, glides'.trans more', heads⟩

theorem Joins.of_rel (related : rel rest rest') :
    Joins function other rel rest rest' :=
  ⟨rest, rest', .refl rest, .refl rest', related⟩

theorem Glides.silent {later : List Instr} (glides : Glides function rest later)
    (regular : Regular scan function.code) (setting : Setting) (state : State) :
    Silent setting function ⟨rest, state⟩ ⟨later, state⟩ := by
  induction glides with
  | refl rest => exact .refl _
  | label opcode _ ih => exact .step (by simp [Function.move, Instr.effect, opcode]) ih
  | idle member idle _ ih =>
    rw [regular.not_isIdle _ member] at idle
    cases idle
  | jump opcode lands _ ih => exact .step (by simp [Function.move, Instr.effect, opcode, lands]) ih

/-- The same state, in front of code that is tracked. -/
inductive TrackedAt (function other : Function) (rel : List Instr → List Instr → Prop) :
    Point → Point → Prop where
  | intro {rest rest' : List Instr} (joins : Joins function other rel rest rest') (state : State) :
      TrackedAt function other rel ⟨rest, state⟩ ⟨rest', state⟩

/-- A function matches the one that can be run beside it. -/
theorem Tracks.matches (tracks : Tracks function other rel)
    (parameters : other.parameters = function.parameters) {scan' : Scan}
    (regular : Regular scan function.code) (regular' : Regular scan' other.code)
    (setting : Setting) : Matches setting function other (TrackedAt function other rel) := by
  refine ⟨parameters, fun state => .intro (.of_rel tracks.start) state, ?_⟩
  rintro _ _ ⟨joins, state⟩
  obtain ⟨head, head', glides, glides', heads⟩ := tracks.heads joins
  refine ⟨⟨head, state⟩, ⟨head', state⟩, glides.silent regular setting state,
    glides'.silent regular' setting state, ?_⟩
  cases heads with
  | nil => exact ⟨rfl, rfl⟩
  | @same instr _ _ member more targets =>
    obtain ⟨scan, here⟩ := regular.of_mem instr member
    refine Meets.of_formed here.formed here.formed (by rw [tracks.owns]) rfl rfl ?_ ?_ ?_
    · exact fun change events _ => .intro (.of_rel more) _
    · intro name target
      obtain ⟨branch, named⟩ := ite_none_right_eq_some.mp target
      have meets := targets branch
      rw [named] at meets
      exact TargetsMeet.mono meets fun related => .intro (.of_rel related) state
    · exact fun _ globals value => .intro (.of_rel more) _
  | @turned _ _ label _ _ _ _ opposite lands lands' taken falls =>
    rw [Meets]
    rcases effect_opposite opposite label setting function.owns state with
      ⟨goes, stays⟩ | ⟨stays, goes⟩
    · simp only [Function.move, tracks.owns, goes, stays, lands]
      exact ⟨trivial, .intro taken state⟩
    · simp only [Function.move, tracks.owns, goes, stays, lands']
      exact ⟨trivial, .intro falls state⟩

end

/-! ## Tidied code is tracked -/

/-- Every jump in the code goes to a label in it. -/
def Landing (code : List Instr) : Prop :=
  jumpTargets code ⊆ marksOf code

/-- Labels and branches have names. -/
def NamesEdges (code : List Instr) : Prop :=
  ∀ instr ∈ code, instr.opcode.isBoundary = true → instr.label.isSome = true

theorem Regular.namesEdges (regular : Regular scan code) :
    NamesEdges code := by
  intro instr member boundary
  obtain ⟨scan', here⟩ := regular.of_mem instr member
  exact here.formed.named boundary

theorem exists_afterLabel (member : name ∈ marksOf code) :
    ∃ target, afterLabel name code = some target := by
  induction code with
  | nil => cases member
  | cons instr rest ih =>
    rw [afterLabel]
    split
    · exact ⟨rest, rfl⟩
    · next other =>
        rw [marksOf_cons, mem_append, mem_toList] at member
        exact ih (member.resolve_left fun here => other ((instr.marks_iff name).mpr here))

theorem Landing.target? (landing : Landing function.code) (member : instr ∈ function.code)
    (branch : instr.opcode.isBranch = true) (named : instr.label.isSome = true) :
    ∃ target, function.target? instr.label = some target := by
  obtain ⟨name, named⟩ := isSome_iff_exists.mp named
  have gone : instr.target? = some name := by rw [Instr.target?, if_pos branch, named]
  rw [named]
  exact exists_afterLabel (landing (mem_filterMap.mpr ⟨instr, member, gone⟩))

section

variable (function : Function) (distinct : (marksOf function.code).Nodup)
  (names : NamesEdges function.code)
include distinct names

/-- Code without jumps to the label behind them. -/
theorem tracks_dropShortJumps :
    Tracks function { function with code := (dropShortJumps function.code).code }
      fun rest rest' => rest <:+ function.code ∧ rest' = (dropShortJumps rest).code where
  owns := owns_dropShortJumps function
  start := ⟨suffix_refl _, rfl⟩
  advance := by
    rintro rest _ ⟨inside, rfl⟩
    induction size : rest.length using Nat.strongRecOn generalizing rest with
    | ind length ih =>
      cases rest with
      | nil => exact .of_rel .nil
      | cons instr rest =>
        have later := (suffix_cons instr rest).trans inside
        rw [dropShortJumps_cons]
        split
        · next short =>
            -- The jump goes behind the label, and where it is dropped the label is passed.
            obtain ⟨next, more, rfl, jump, label, same⟩ := jumpsTo_head? short
            obtain ⟨name, named⟩ := isSome_iff_exists.mp
              (names next (later.mem (mem_cons_self ..)) (by rw [label]; rfl))
            have stays : more.head?.any next.jumpsTo = false := by
              cases more <;> simp [Instr.jumpsTo, label]
            have lands := target?_of_nodup distinct later label named
            rw [dropShortJumps_cons, if_neg (by rw [stays]; decide)]
            obtain ⟨head, head', glides, glides', heads⟩ :=
              ih more.length (by simp only [length_cons] at size; omega)
                ((suffix_cons next more).trans later) rfl
            exact ⟨head, head', .jump jump (by rw [same, named, lands]) glides,
              .label label glides', heads⟩
        · exact .of_rel (.same (inside.mem (mem_cons_self ..)) ⟨later, rfl⟩ fun _ =>
            targets_dropShortJumps function instr.label)

variable (landing : Landing function.code)
include landing

/-- Code with branches around a jump turned. -/
theorem tracks_invertBranches :
    Tracks function { function with code := (invertBranches function.code).code }
      fun rest rest' => rest <:+ function.code ∧ Inverts rest rest' := by
  have whole : Inverts function.code
      { function with code := (invertBranches function.code).code }.code :=
    inverts_invertBranches function.code
  generalize { function with code := (invertBranches function.code).code } = other at whole
  refine ⟨whole.owns, ⟨suffix_refl _, whole⟩, ?_⟩
  rintro rest rest' ⟨inside, inverts⟩
  refine .of_rel ?_
  cases inverts with
  | nil => exact .nil
  | keep instr more =>
    exact .same (inside.mem (mem_cons_self ..)) ⟨(suffix_cons instr _).trans inside, more⟩
      fun _ => whole.targets instr.label
  | @turn branch jump next _ rest others turned more =>
    obtain ⟨opcode, opposite, isJump, isLabel, label, rfl⟩ := inverted?_eq_some turned
    have atJump := (suffix_cons branch _).trans inside
    have atLabel := (suffix_cons jump _).trans atJump
    obtain ⟨name, named⟩ := isSome_iff_exists.mp
      (names next (atLabel.mem (mem_cons_self ..)) (by rw [isLabel]; rfl))
    obtain ⟨target, lands⟩ := landing.target? (atJump.mem (mem_cons_self ..))
      (by rw [isJump]; rfl) (names jump (atJump.mem (mem_cons_self ..)) (by rw [isJump]; rfl))
    have meets := whole.targets jump.label
    rw [lands] at meets
    cases lands' : other.target? jump.label with
    | none =>
      rw [lands'] at meets
      exact meets.elim
    | some target' =>
      rw [lands'] at meets
      cases more with
      | keep _ more =>
        have behind := target?_of_nodup distinct atLabel isLabel named
        exact .turned opposite (label ▸ named ▸ behind) lands'
          ⟨_, _, .refl _, .label isLabel (.refl _),
            (suffix_cons next _).trans atLabel, more⟩
          ⟨_, _, .jump isJump lands (.refl _), .refl _, meets⟩
      | turn turned _ =>
        obtain ⟨_, opposite, _⟩ := inverted?_eq_some turned
        rw [isLabel] at opposite
        cases opposite

end

end ArmBackend.Ir
