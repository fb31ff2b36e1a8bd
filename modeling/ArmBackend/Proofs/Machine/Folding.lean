import ArmBackend.Proofs.Machine.Faults
import ArmBackend.Proofs.Machine.Selection
import ArmBackend.Proofs.Passes.Folding

/-!
# Folding and computing agree

An operation on integer literals can be folded, or it can be left to the machine.  Both
ways have code whatever the destination lives in, and they leave the same word there.
So does the negation of a float, unless the float is the negative zero: folding takes it for
zero, but the machine looks at its pattern.
-/

namespace ArmBackend.Binary64

/-- Two patterns are those of zeros. -/
theorem isZero_iff (value : Binary64) :
    value.isZero = true ↔ value.bits = 0 ∨ value = ofSigned true 0 := by
  obtain ⟨bits⟩ := value
  have negative : (ofSigned true 0) = ⟨9223372036854775808#64⟩ := by decide
  have power : Nat.pow 2 63 = 9223372036854775808 := rfl
  rw [isZero, magnitude, beq_iff_eq, power, negative, mk.injEq]
  bv_omega

/-- A look at the pattern takes the negative zero for no zero. -/
theorem ofBool_pattern_iff (value : Binary64) :
    Word.ofBool (value.bits == 0) = Word.ofBool value.isZero ↔ value ≠ ofSigned true 0 := by
  by_cases negative : value = ofSigned true 0
  · subst negative
    decide
  · have same : value.isZero = (value.bits == 0) := by
      rw [Bool.eq_iff_iff, isZero_iff, beq_iff_eq, or_iff_left negative]
    rw [same]
    exact iff_of_true rfl negative

end ArmBackend.Binary64

namespace ArmBackend.Ir

open List Option

namespace Instr

/-- An operation on integer literals, with a destination that is no float.  A divisor is not zero. -/
structure OnIntegers (instr : Instr) (dest : Operand) (left right : Word) : Prop where
  written : instr.dest = some dest
  integer : dest.type.isFloat = false
  first : ∃ type, type.isFloat = false ∧ instr.src1 = some (.immediate (.int left) type)
  second : instr.opcode.isBinary = true →
    ∃ type, type.isFloat = false ∧ instr.src2 = some (.immediate (.int right) type)
  single : instr.opcode.isBinary = false → instr.src2 = none
  divisor : instr.opcode.divides = true → right ≠ 0
  operation : instr.opcode.isBinary = true ∨ instr.opcode ∈ [.move, .neg, .not]

/-- The word that the operation gives. -/
def onWords (instr : Instr) (left right : Word) : Word :=
  if instr.opcode.isBinary then instr.opcode.onInts left right
  else instr.opcode.onOne .binary64 false left

namespace OnIntegers

variable {instr : Instr} {dest : Operand} {left right : Word}
  (integers : instr.OnIntegers dest left right)

include integers

theorem folded?_eq : instr.folded? = some (.int (instr.onWords left right)) := by
  obtain ⟨first, _, source⟩ := integers.first
  have one : instr.immediate1? = some (.int left) := by simp [immediate1?, source, Operand.immediate?]
  unfold folded? onWords
  by_cases binary : instr.opcode.isBinary = true
  · obtain ⟨second, _, source'⟩ := integers.second binary
    have two : instr.immediate2? = some (.int right) := by
      simp [immediate2?, source', Operand.immediate?]
    have nonzero : instr.dividesByZero = false := by
      unfold dividesByZero
      cases divides : instr.opcode.divides with
      | false => rfl
      | true =>
        have other : right ≠ 0#64 := integers.divisor divides
        simp [one, two, Immediate.isZero, other]
    rw [if_pos binary, if_pos binary, one, two]
    simp only [nonzero, Bool.false_eq_true, if_false]
    cases opcode : instr.opcode <;> rw [opcode] at binary <;> first | rfl | cases binary
  · rcases integers.operation with other | single
    · exact absurd other binary
    · simp only [mem_cons, not_mem_nil, or_false] at single
      rw [if_neg binary, if_neg binary, one]
      rcases single with opcode | opcode | opcode <;> rw [opcode] <;> rfl

theorem literals : ∀ operand ∈ instr.sources, operand.isImmediate = true := by
  obtain ⟨_, _, source⟩ := integers.first
  cases binary : instr.opcode.isBinary with
  | true =>
    obtain ⟨_, _, source'⟩ := integers.second binary
    simp [sources, source, source', Operand.isImmediate, Operand.immediate?]
  | false =>
    simp [sources, source, integers.single binary, Operand.isImmediate, Operand.immediate?]

theorem isSome_src1 : instr.src1.isSome = true := by
  obtain ⟨_, _, source⟩ := integers.first
  rw [source]
  rfl

theorem isSome_src2 (binary : instr.opcode.isBinary = true) : instr.src2.isSome = true := by
  obtain ⟨_, _, source⟩ := integers.second binary
  rw [source]
  rfl

theorem fold?_eq : instr.fold? = some { loadImm dest (.int (instr.onWords left right)) with
    comment := instr.comment, line := instr.line } := by
  unfold fold?
  rw [integers.folded?_eq, integers.written]
  simp [Immediate.fit, integers.integer]

theorem result_eq (setting : Setting) (owns : String → Bool) (state : State) :
    instr.result setting owns state = instr.onWords left right := by
  obtain ⟨first, kind, source⟩ := integers.first
  have one : instr.first setting owns state = left := by
    simp [Instr.first, source, Operand.value, Immediate.word, kind, Immediate.toWord]
  unfold result onWords
  by_cases binary : instr.opcode.isBinary = true
  · obtain ⟨second, kind', source'⟩ := integers.second binary
    have two : instr.second setting owns state = right := by
      simp [Instr.second, source', Operand.value, Immediate.word, kind', Immediate.toWord]
    have floats : instr.onFloats = false := by
      simp [Instr.onFloats, sources, source, source', Operand.type, kind, kind']
    rw [if_pos binary, if_pos binary, one, two, floats]
    rfl
  · rcases integers.operation with other | single
    · exact absurd other binary
    · simp only [mem_cons, not_mem_nil, or_false] at single
      have type : instr.firstType.isFloat = false := by
        simp [firstType, source, Operand.type, kind]
      rw [if_neg binary, if_neg binary, one, type]
      rcases single with opcode | opcode | opcode <;> rw [opcode] <;> rfl

end OnIntegers

end Instr

end ArmBackend.Ir

namespace ArmBackend.Machine

open List Option

open ArmBackend.Frame

variable {pending : Pending}

namespace Placement

variable {placed : Placement} {dest : Ir.Operand}

variable (placed) in
/-- The destination lives in a register or in a slot, or it is a global. -/
def Stores (dest : Ir.Operand) : Prop :=
  (∃ name type, dest = .global name type) ∨ ∃ home,
    dest.location?.bind placed.layout.homes.get? = some home ∧
      ∀ base length, home ≠ .array base length

/-- What goes to the destination can be read and written. -/
theorem Stores.serves (stores : placed.Stores dest) {guard : Guard} :
    placed.site.Reads guard dest ∧ placed.site.Writes guard dest := by
  rcases stores with ⟨name, type, rfl⟩ | ⟨home, found, plain⟩
  · exact ⟨⟨rfl, fun _ => nofun, fun _ => rfl⟩, ⟨fun _ => .inr rfl, fun _ => nofun⟩⟩
  cases dest with
  | temp _ _ | var _ _ | param _ _ =>
    refine ⟨⟨rfl, fun _ => forall_mem_singleton.mpr ⟨home, found⟩, fun _ => rfl⟩,
      ⟨fun _ => by first | exact .inl rfl | exact .inr rfl, fun _ => forall_mem_singleton.mpr ?_⟩⟩
    intro base length array
    exact plain base length (Option.some.inj (found.symm.trans array))
  | global _ _ => exact ⟨⟨rfl, fun _ => nofun, fun _ => rfl⟩, ⟨fun _ => .inr rfl, fun _ => nofun⟩⟩
  | element _ _ _ | label _ _ | immediate _ _ => cases found

variable {instr : Ir.Instr} {left right : Word}

section

variable (stores : placed.Stores dest) (written : instr.dest = some dest)
  (first : instr.src1.isSome = true)
  (second : instr.opcode.isBinary = true → instr.src2.isSome = true)
  (literals : ∀ operand ∈ instr.sources, operand.isImmediate = true)
  (operation : instr.opcode.isBinary = true ∨ instr.opcode ∈ [.loadImm, .move, .neg, .not])
  (pending : Pending)

include stores written first second literals operation

/-- An operation on literals has code. -/
theorem Stores.run : ∃ code, (placed.site.select pending instr).run = .ok code := by
  have reads : ∀ operand ∈ instr.operands, placed.site.Reads ⟨True, True, True⟩ operand := by
    intro operand member
    rcases mem_append.mp member with target | source
    · cases written.symm.trans (mem_toList.mp target)
      exact stores.serves.1
    · have literal := literals operand source
      cases operand with
      | immediate value type => exact ⟨rfl, by rintro _ _ ⟨⟩, fun _ => rfl⟩
      | _ => cases literal
  have kind : instr.opcode ≠ .call ∧ instr.opcode ≠ .arrayStore ∧ instr.opcode ≠ .arg ∧
      instr.opcode.isBoundary = false ∧ (1 < instr.opcode.takes → instr.opcode.isBinary = true) := by
    revert operation
    cases instr.opcode <;> decide
  obtain ⟨notCall, notFill, notArg, straight, two⟩ := kind
  refine Site.Serves.run ⟨reads, fun other given => ?_, fun _ => ?_⟩ notCall pending
  · have same : some other = some dest := by
      rw [← written, ← given, Ir.Instr.written?]
      split
      · rfl
      · next idle =>
          rw [Ir.Instr.written?, if_neg idle] at given
          cases given
    cases same
    exact stores.serves.2
  · refine ⟨⟨fun _ => first, fun takes => second (two takes), (absurd · notCall),
      fun operand member => (reads operand member).flat⟩, ?_, fun _ => ?_, (absurd · notFill),
      (absurd · notArg)⟩
    · exact fun boundary => Bool.noConfusion (straight.symm.trans boundary)
    · rw [written]
      rfl

/-- What it computes arrives where the destination lives. -/
theorem Stores.leaves : ∃ code, (placed.site.select pending instr).run = .ok code ∧
    ∀ machine, ∃ spot,
      placed.spot? (machine.get .fp) (placed.readOff machine) dest = some spot ∧
        spot.read (execAll placed.platform code machine) =
          instr.result placed.setting placed.frames (placed.readOff machine) := by
  obtain ⟨code, selected⟩ := stores.run written first second literals operation pending
  refine ⟨code, selected, fun machine => ?_⟩
  have kind : instr.opcode.givesValue = true ∧ instr.opcode ≠ .arrayStore := by
    revert operation
    cases instr.opcode <;> decide
  have reads : ∀ operand ∈ instr.inputs,
      placed.Reads (machine.get .fp) (placed.readOff machine) operand := by
    intro operand member
    rw [Ir.Instr.inputs, if_neg kind.2, append_nil] at member
    have literal := literals operand member
    cases operand with
    | immediate value type => exact ⟨⟨by rintro _ ⟨⟩, by rintro _ ⟨⟩⟩, trivial, by rintro _ ⟨⟩⟩
    | _ => cases literal
  obtain ⟨_, other, same, spot, there, read, _⟩ :=
    (leads_select (placed.holds_readOff machine) reads pending kind.1).of_run selected
  cases written.symm.trans same
  exact ⟨spot, there, read⟩

end

/-! ## Two ways to the same word -/

/-- Folding and computing agree on integers.  An operation on integer literals is folded to the load
of a word.  Both the operation and the load have code, and in every state of the machine both leave
that word where the destination lives. -/
theorem folding_agrees (integers : instr.OnIntegers dest left right) (stores : placed.Stores dest)
    (pending pending' : Pending) : ∃ word loaded code code',
      instr.fold? = some loaded ∧ loaded.opcode = .loadImm ∧ loaded.dest = some dest ∧
      loaded.src1 = some (.immediate (.int word) dest.type) ∧
      (placed.site.select pending instr).run = .ok code ∧
      (placed.site.select pending' loaded).run = .ok code' ∧
      ∀ machine, ∃ spot,
        placed.spot? (machine.get .fp) (placed.readOff machine) dest = some spot ∧
        spot.read (execAll placed.platform code machine) = word ∧
        spot.read (execAll placed.platform code' machine) = word := by
  obtain ⟨code, selected, computes⟩ := stores.leaves integers.written integers.isSome_src1
    integers.isSome_src2 integers.literals (integers.operation.imp_right (mem_cons_of_mem _)) pending
  let loaded : Ir.Instr := { Ir.Instr.loadImm dest (.int (instr.onWords left right)) with
    comment := instr.comment, line := instr.line }
  obtain ⟨code', selected', loads⟩ : ∃ code', (placed.site.select pending' loaded).run = .ok code' ∧ _ :=
    stores.leaves rfl rfl (fun binary => by cases binary)
      (by simp [loaded, Ir.Instr.sources, Ir.Instr.loadImm, Ir.Operand.isImmediate,
        Ir.Operand.immediate?])
      (.inr (mem_cons_self ..)) pending'
  refine ⟨instr.onWords left right, loaded, code, code', integers.fold?_eq, rfl, rfl, rfl, selected,
    selected', fun machine => ?_⟩
  obtain ⟨spot, there, computed⟩ := computes machine
  obtain ⟨spot', there', read⟩ := loads machine
  cases there.symm.trans there'
  refine ⟨spot, there, computed.trans (integers.result_eq ..),
    read.trans ((result_of_move (by simp [loaded, Ir.Instr.loadImm]) rfl _).trans ?_)⟩
  simp [Placement.value, Ir.Operand.value, Ir.Immediate.word, integers.integer, Ir.Immediate.toWord]

/-- The remainder of the least integer by minus one, which goes to a global. -/
def leastRemainder : Ir.Instr :=
  .binary .mod (.global "total" .int) (.immediate (.int (BitVec.intMin 64)) .int)
    (.immediate (.int (-1)) .bool)

theorem leastRemainder_folding_agrees : ∃ word loaded code code',
    leastRemainder.fold? = some loaded ∧ loaded.opcode = .loadImm ∧
    loaded.dest = some (.global "total" .int) ∧
    loaded.src1 = some (.immediate (.int word) .int) ∧
    (shelf.site.select [] leastRemainder).run = .ok code ∧
    (shelf.site.select [] loaded).run = .ok code' ∧
    ∀ machine, ∃ spot,
      shelf.spot? (machine.get .fp) (shelf.readOff machine) (.global "total" .int) = some spot ∧
      spot.read (execAll shelf.platform code machine) = word ∧
      spot.read (execAll shelf.platform code' machine) = word := by
  have integers : leastRemainder.OnIntegers (.global "total" .int) (BitVec.intMin 64) (-1) :=
    ⟨rfl, rfl, ⟨.int, rfl, rfl⟩, fun _ => ⟨.bool, rfl, rfl⟩, nofun, fun _ => by decide, .inl rfl⟩
  exact folding_agrees integers (.inl ⟨"total", .int, rfl⟩) [] []

/-! ## Floats that count as false -/

/-- A float is negated by a look at its pattern. -/
theorem leaves_negation {value : Binary64} (opcode : instr.opcode = .not)
    (written : instr.dest = some dest) (source : instr.src1 = some (.float value))
    (single : instr.src2 = none) (stores : placed.Stores dest) (pending : Pending) :
    ∃ code, (placed.site.select pending instr).run = .ok code ∧ ∀ machine, ∃ spot,
      placed.spot? (machine.get .fp) (placed.readOff machine) dest = some spot ∧
        spot.read (execAll placed.platform code machine) = .ofBool (value.bits == 0) := by
  have literals : ∀ operand ∈ instr.sources, operand.isImmediate = true := by
    simp [Ir.Instr.sources, source, single, Ir.Operand.isImmediate, Ir.Operand.immediate?,
      Ir.Operand.float]
  obtain ⟨code, selected, leaves⟩ := stores.leaves written (by rw [source]; rfl)
    (fun binary => by rw [opcode] at binary; cases binary) literals (.inr (by simp [opcode])) pending
  refine ⟨code, selected, fun machine => ?_⟩
  obtain ⟨spot, there, read⟩ := leaves machine
  refine ⟨spot, there, read.trans ?_⟩
  simp [Ir.Instr.result, opcode, Ir.Opcode.isBinary, Ir.Opcode.isComparison, Ir.Opcode.onOne,
    Ir.Instr.first, source, Ir.Operand.float, Ir.Operand.value, Ir.Immediate.word, DataType.isFloat,
    Ir.Immediate.toReal]

/-- Folding a negated float gives the word that the machine leaves where the destination lives, in
every state of the machine, exactly if the float is not the negative zero. -/
theorem negation_agrees_iff {value : Binary64} (opcode : instr.opcode = .not)
    (written : instr.dest = some dest) (source : instr.src1 = some (.float value))
    (single : instr.src2 = none) (stores : placed.Stores dest) (pending : Pending) :
    ∃ word code, instr.folded? = some (.int word) ∧
      (placed.site.select pending instr).run = .ok code ∧ ∀ machine, ∃ spot,
        placed.spot? (machine.get .fp) (placed.readOff machine) dest = some spot ∧
        (spot.read (execAll placed.platform code machine) = word ↔ value ≠ .ofSigned true 0) := by
  obtain ⟨code, selected, leaves⟩ := leaves_negation opcode written source single stores pending
  refine ⟨.ofBool value.isZero, code, ?_, selected, fun machine => ?_⟩
  · simp [Ir.Instr.folded?, opcode, Ir.Instr.immediate1?, source, Ir.Operand.float,
      Ir.Operand.immediate?, Ir.Opcode.isBinary, Ir.Opcode.isComparison, Ir.Opcode.isPure,
      Ir.Opcode.foldUnary?, Ir.Immediate.ofBool, Ir.Immediate.isZero]
  · obtain ⟨spot, there, read⟩ := leaves machine
    refine ⟨spot, there, ?_⟩
    rw [read, value.ofBool_pattern_iff]

/-- A float is negated, and the truth goes to a global. -/
def negated (value : Binary64) : Ir.Instr :=
  .unary .not (.global "total" .bool) (.float value)

/-- The least float above zero is negated alike. -/
theorem least_negation_agrees : (⟨1⟩ : Binary64) ≠ .ofSigned true 0 ∧
    ∃ word code, (negated ⟨1⟩).folded? = some (.int word) ∧
      (shelf.site.select [] (negated ⟨1⟩)).run = .ok code ∧ ∀ machine, ∃ spot,
        shelf.spot? (machine.get .fp) (shelf.readOff machine) (.global "total" .bool) = some spot ∧
        (spot.read (execAll shelf.platform code machine) = word ↔
          (⟨1⟩ : Binary64) ≠ .ofSigned true 0) :=
  ⟨by decide, negation_agrees_iff rfl rfl rfl rfl (.inl ⟨"total", .bool, rfl⟩) []⟩

/-- The negative zero is folded to true, but the machine leaves false. -/
theorem negative_zero_goes_apart :
    (negated (.ofSigned true 0)).folded? = some (.int 1) ∧
      ∃ code, (shelf.site.select [] (negated (.ofSigned true 0))).run = .ok code ∧
        ∀ machine, ∃ spot,
          shelf.spot? (machine.get .fp) (shelf.readOff machine) (.global "total" .bool) = some spot ∧
          spot.read (execAll shelf.platform code machine) = 0 := by
  have pattern : Word.ofBool ((Binary64.ofSigned true 0).bits == 0) = 0 := by decide
  rw [← pattern]
  exact ⟨rfl, leaves_negation rfl rfl rfl rfl (.inl ⟨"total", .bool, rfl⟩) []⟩

end Placement

end ArmBackend.Machine
