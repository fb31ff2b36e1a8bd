import ArmBackend.Proofs.Lowering.Related
import ArmBackend.Proofs.Lowering.Shape

/-!
# Code of single values

The instructions that compute a value leave it in the operand that lowering names,
with the type that it has in the source language.
-/

namespace ArmBackend

variable {op : BinaryOp} {type target : DataType} {line : Nat} {opcode : Opcode} {operand : Operand}
  {value : Value}

theorem DataType.eq_float_of_isFloat (float : type.isFloat = true) : type = .float := by
  cases type <;> first | rfl | cases float

namespace Ir.Opcode

open Source (Value)

theorem givesValue_of_isBinary (binary : opcode.isBinary = true) : opcode.givesValue = true := by
  cases opcode <;> first | rfl | cases binary

theorem isBinary_ofBinary (op : BinaryOp) : (ofBinary op).isBinary = true := by
  cases op <;> rfl

end Ir.Opcode

namespace Source.Value

theorem ofReal_real (float : value.type.isFloat = true) : ofReal value.real = value := by
  obtain ⟨type, bits⟩ := value
  cases DataType.eq_float_of_isFloat float
  rfl

theorem real_ofReal (value : Binary64) : (ofReal value).real = value :=
  rfl

theorem isFloat_ofReal (value : Binary64) : (ofReal value).type.isFloat = true :=
  rfl

theorem ofReal_real_of_not (plain : value.type.isFloat = false) :
    ofReal value.real = ⟨.float, (Binary64.ofWord value.bits).bits⟩ := by
  simp [ofReal, real, plain]

theorem type_binary_of_isLogical (logical : op.isLogical = true) (left right : Value) :
    (left.binary op right).type = .bool := by
  cases op <;> first | rfl | cases logical

theorem type_binary (plain : op.isLogical = false) (left right : Value) :
    (left.binary op right).type =
      if op.isComparison then .bool else DataType.arithmetic left.type right.type := by
  unfold binary DataType.arithmetic
  rw [plain]
  by_cases float : (left.type.isFloat || right.type.isFloat) = true
  · simp only [float, Bool.not_false, Bool.and_self, if_true]
    cases op <;> first | rfl | cases plain
  · simp only [float, Bool.not_false, Bool.true_and]
    cases op <;> first | rfl | cases plain

theorem binary_ofReal (plain : op.isLogical = false) {left right : Value}
    (differ : left.type.isFloat ≠ right.type.isFloat) :
    (ofReal left.real).binary op (ofReal right.real) = left.binary op right := by
  have float : (left.type.isFloat || right.type.isFloat) = true := by
    cases one : left.type.isFloat <;> cases two : right.type.isFloat <;> simp_all
  unfold binary
  rw [plain, float, real_ofReal, real_ofReal]
  rfl

theorem onTwo_ofBinary (op : BinaryOp) (left right : Value)
    (alike : op.isLogical = true ∨ left.type.isFloat = right.type.isFloat) :
    (Ir.Opcode.ofBinary op).onTwo .binary64 (left.type.isFloat || right.type.isFloat) left.bits
      right.bits = (left.binary op right).bits := by
  unfold binary Ir.Opcode.onTwo
  cases logical : op.isLogical with
  | true =>
    cases left.type.isFloat || right.type.isFloat <;> cases op <;> first | rfl | cases logical
  | false =>
    have same : left.type.isFloat = right.type.isFloat := by simpa [logical] using alike
    by_cases float : right.type.isFloat = true
    · simp only [same, float, real, Bool.or_self, Bool.not_false, Bool.and_self, if_true]
      cases op <;> rfl
    · simp only [same, float, Bool.or_self, Bool.not_false, Bool.and_false]
      cases op <;> rfl

end Source.Value

namespace Ir

open Source (Value World Code)

namespace Stage

section

variable (stage : Stage)

/-- The operand holds the value, and newer code will not change that. -/
structure Holds (bound : Nat) (state : State) (operand : Operand) (value : Value) : Prop where
  type : operand.type = value.type
  bits : stage.value state operand = value.bits
  settled : operand.Settled bound

/-- The code of a value runs to its end, prints nothing, and leaves the value in the operand. -/
def Delivers (config : Config) (context : Context) (lowered : Lowered) (state : State)
    (rest : List Instr) (output : List Printed) (value : Value) : Prop :=
  ∃ count after, stage.At (stage.run count config) rest after output ∧
    Keeps context.temps state after ∧ after.globals = state.globals ∧
    stage.Holds lowered.context.temps after lowered.operand value

end

variable {stage : Stage} {config : Config} {context : Context} {state : State}
  {rest : List Instr} {output : List Printed}

theorem Holds.keeps {low high : Nat} {before after : State}
    (holds : stage.Holds low before operand value) (keeps : Keeps low before after)
    (le : low ≤ high) :
    stage.Holds high after operand value where
  type := holds.type
  bits := (holds.settled.value_eq keeps _ _).trans holds.bits
  settled := holds.settled.mono le

theorem effect_unary (gives : opcode.givesValue = true) (single : opcode.isBinary = false)
    (name : String) (type : DataType) (source : Operand) :
    stage.effect state (.unary opcode (.temp name type) source) =
      .next (state.set (.temp name) (opcode.onOne stage.env.floats source.type.isFloat
        (stage.value state source))) [] := by
  unfold effect
  rw [Instr.effect_of_givesValue gives]
  simp [Instr.give, Instr.result, Instr.unary, single, Instr.firstType, Instr.first,
    Operand.assign, Operand.location?, Operand.stored, Stage.value]

theorem effect_binary (binary : opcode.isBinary = true) (name : String) (type : DataType)
    (left right : Operand) :
    stage.effect state (.binary opcode (.temp name type) left right) =
      .next (state.set (.temp name) (opcode.onTwo stage.env.floats
        (left.type.isFloat || right.type.isFloat) (stage.value state left)
        (stage.value state right))) [] := by
  unfold effect
  rw [Instr.effect_of_givesValue (Opcode.givesValue_of_isBinary binary)]
  simp [Instr.give, Instr.result, Instr.binary, binary, Instr.onFloats, Instr.sources, Instr.first,
    Instr.second, Operand.assign, Operand.location?, Operand.stored, Stage.value]

theorem delivers_value (here : stage.At config rest state output)
    (holds : stage.Holds context.temps state operand value) :
    stage.Delivers config context (.value context operand) state rest output value :=
  ⟨0, state, here, .refl _ _, rfl, holds⟩

theorem delivers_computed {instr : Operand → Instr} {bits : Word}
    (here : stage.At config ((Lowered.computed context type line instr).code ++ rest) state output)
    (does : stage.effect state (instr (.temp (tempName context.temps) type)) =
      .next (state.set (.temp (tempName context.temps)) bits) []) :
    stage.Delivers config context (.computed context type line instr) state rest output
      ⟨type, bits⟩ := by
  refine ⟨1, state.set (.temp (tempName context.temps)) bits, here.silent does rfl,
    .setTemp (Nat.le_refl _) state bits, rfl, rfl, ?_, context.temps, Nat.lt_succ_self _, rfl⟩
  exact state.get_set_self (.temp (tempName context.temps)) bits

section

variable (floats : stage.env.floats = .binary64)
include floats

section

variable (holds : stage.Holds context.temps state operand value)
include holds

theorem delivers_promote
    (here : stage.At config ((Lowered.promote context line operand).code ++ rest) state output) :
    stage.Delivers config context (.promote context line operand) state rest output
      (.ofReal value.real) := by
  unfold Lowered.promote at here ⊢
  by_cases float : operand.type.isFloat = true
  · rw [if_pos float] at here ⊢
    rw [Value.ofReal_real (holds.type ▸ float)]
    exact delivers_value here holds
  · rw [if_neg float] at here ⊢
    rw [Value.ofReal_real_of_not (holds.type ▸ Bool.eq_false_iff.mpr float)]
    refine delivers_computed here ?_
    rw [effect_unary rfl rfl, holds.bits, floats]
    rfl

theorem delivers_coerce
    (here : stage.At config ((Lowered.coerce context line target operand).code ++ rest) state
      output) :
    stage.Delivers config context (.coerce context line target operand) state rest output
      (value.coerce target) := by
  unfold Lowered.coerce at here ⊢
  unfold Value.coerce
  rw [← holds.type]
  by_cases stays : (!target.isFloat || operand.type.isFloat || operand.type.isVoid) = true
  · rw [if_pos stays] at here ⊢
    have same : (if (target.isFloat && !operand.type.isVoid) = true then Value.ofReal value.real
        else value) = value := by
      split
      · next converts =>
          have float : operand.type.isFloat = true := by
            cases target.isFloat <;> cases operand.type.isVoid <;> simp_all
          exact Value.ofReal_real (holds.type ▸ float)
      · rfl
    rw [same]
    exact delivers_value here holds
  · rw [if_neg stays] at here ⊢
    simp only [Bool.or_eq_true, Bool.not_eq_true', not_or, Bool.not_eq_false,
      Bool.not_eq_true] at stays
    obtain ⟨⟨target, plain⟩, filled⟩ := stays
    rw [target, filled]
    cases operand with
    | immediate literal type =>
      have kind : literal.isFloat = false := holds.settled.trans plain
      cases literal with
      | float literal => cases kind
      | int literal =>
        have bits : literal = value.bits := by
          have read := holds.bits
          simpa [Stage.value, Operand.value, Immediate.word, Immediate.toWord,
            show type.isFloat = false from plain] using read
        change stage.Delivers config context (.value context (.float (.ofWord literal))) state
          rest output (.ofReal value.real)
        rw [Value.ofReal_real_of_not (holds.type ▸ plain), ← bits]
        exact delivers_value here ⟨rfl, rfl, rfl⟩
    | _ => exact delivers_promote floats holds here

theorem delivers_unary {op : UnaryOp}
    (here : stage.At config ((Lowered.unary context line op operand).code ++ rest) state output) :
    stage.Delivers config context (.unary context line op operand) state rest output
      (value.unary op) := by
  unfold Lowered.unary at here ⊢
  cases op with
  | minus =>
    have same : value.unary .minus =
        ⟨operand.type, Opcode.neg.onOne .binary64 operand.type.isFloat value.bits⟩ := by
      rw [holds.type]
      cases float : value.type.isFloat with
      | true =>
        simp [Value.unary, Opcode.onOne, FloatUnit.binary64, Value.ofReal,
          DataType.eq_float_of_isFloat float, DataType.isFloat]
      | false => simp [Value.unary, Opcode.onOne, float]
    rw [same]
    refine delivers_computed here ?_
    rw [effect_unary rfl rfl, holds.bits, floats]
  | not =>
    refine delivers_computed here ?_
    rw [effect_unary rfl rfl, holds.bits]
    rfl

theorem delivers_cast
    (here : stage.At config ((Lowered.cast context line target operand).code ++ rest) state
      output) :
    stage.Delivers config context (.cast context line target operand) state rest output
      (value.cast target) := by
  have bits : value.cast target = ⟨target, (Opcode.ofCast operand.type target).onOne .binary64
      operand.type.isFloat value.bits⟩ := by
    rw [holds.type]
    cases source : value.type.isFloat <;> cases float : target.isFloat <;>
      simp [Value.cast, Opcode.ofCast, Opcode.onOne, Value.real, FloatUnit.binary64, source, float]
  have gives : (Opcode.ofCast operand.type target).givesValue = true ∧
      (Opcode.ofCast operand.type target).isBinary = false := by
    unfold Opcode.ofCast
    cases operand.type.isFloat <;> cases target.isFloat <;> exact ⟨rfl, rfl⟩
  rw [bits]
  refine delivers_computed here ?_
  rw [effect_unary gives.1 gives.2, holds.bits, floats]

end

variable {left right : Operand} {first second : Value}

theorem delivers_operation (here : stage.At config ((Lowered.computed context type line fun dest =>
      .binary (.ofBinary op) dest left right).code ++ rest) state output)
    (one : stage.Holds context.temps state left first)
    (two : stage.Holds context.temps state right second)
    (alike : op.isLogical = true ∨ first.type.isFloat = second.type.isFloat)
    (result : type = (first.binary op second).type) :
    stage.Delivers config context (.computed context type line fun dest =>
      .binary (.ofBinary op) dest left right) state rest output (first.binary op second) := by
  have bits : (Opcode.ofBinary op).onTwo stage.env.floats
      (left.type.isFloat || right.type.isFloat) (stage.value state left)
      (stage.value state right) = (first.binary op second).bits := by
    rw [floats, one.bits, two.bits, one.type, two.type]
    exact Value.onTwo_ofBinary op first second alike
  have value : first.binary op second = ⟨type, (first.binary op second).bits⟩ := by rw [result]
  rw [value]
  refine delivers_computed here ?_
  rw [effect_binary (Opcode.isBinary_ofBinary op), bits]

theorem delivers_binary
    (here : stage.At config ((Lowered.binary context line op left right).code ++ rest) state
      output) (one : stage.Holds context.temps state left first)
    (two : stage.Holds context.temps state right second) :
    stage.Delivers config context (.binary context line op left right) state rest output
      (first.binary op second) := by
  unfold Lowered.binary at here ⊢
  by_cases logical : op.isLogical = true
  · rw [if_pos logical] at here ⊢
    exact delivers_operation floats here one two (.inl logical)
      (Value.type_binary_of_isLogical logical first second).symm
  · rw [if_neg logical] at here ⊢
    have plain : op.isLogical = false := Bool.eq_false_iff.mpr logical
    by_cases alike : (left.type.isFloat == right.type.isFloat) = true
    · rw [if_pos alike] at here ⊢
      refine delivers_operation floats here one two (.inr ?_) ?_
      · rw [← one.type, ← two.type]
        exact eq_of_beq alike
      · rw [Value.type_binary plain, one.type, two.type]
    · rw [if_neg alike] at here ⊢
      have real : (Value.ofReal first.real).binary op (.ofReal second.real) =
          first.binary op second := by
        refine Value.binary_ofReal plain ?_
        rw [← one.type, ← two.type]
        exact fun same => alike (beq_iff_eq.mpr same)
      rw [← real]
      simp only [Lowered.after, List.append_assoc] at here
      obtain ⟨count, between, there, kept, same, holds⟩ := delivers_promote floats one here
      have extended := (Lowered.Tame.promote context line left).issued.temps
      obtain ⟨more, after, arrived, keptMore, sameMore, holdsMore⟩ :=
        delivers_promote floats (two.keeps kept extended) there
      have later := (Lowered.Tame.promote (Lowered.promote context line left).context line
        right).issued.temps
      have held := holds.keeps keptMore later
      obtain ⟨last, final, reached, keptLast, sameLast, result⟩ :=
        delivers_operation floats arrived held holdsMore
          (.inr ((Value.isFloat_ofReal _).trans (Value.isFloat_ofReal _).symm)) (by
          rw [Value.type_binary plain, held.type, holdsMore.type])
      refine ⟨count + (more + last), final, ?_, ?_, ?_, result⟩
      · rwa [stage.run_add, stage.run_add]
      · exact kept.trans (keptMore.trans keptLast later) extended
      · exact sameLast.trans (sameMore.trans same)

end

/-- A value that is only copied to a temporary. -/
theorem delivers_copy (gives : opcode.givesValue = true) (single : opcode.isBinary = false)
    (copies : ∀ value, opcode.onOne stage.env.floats operand.type.isFloat value = value)
    (here : stage.At config ((Lowered.computed context type line fun dest =>
      .unary opcode dest operand).code ++ rest) state output) :
    stage.Delivers config context (.computed context type line fun dest =>
      .unary opcode dest operand) state rest output ⟨type, stage.value state operand⟩ := by
  refine delivers_computed here ?_
  rw [effect_unary gives single, copies]

end Stage

end Ir

end ArmBackend
