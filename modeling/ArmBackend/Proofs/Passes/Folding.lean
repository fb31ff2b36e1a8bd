import ArmBackend.Ir.Pass.Folding
import ArmBackend.Proofs.Passes.Regular

/-!
# Folding keeps the run

An operation on literals that fit their types has the value of the folded literal, so an
instruction and the load that it becomes do the same.
-/

namespace ArmBackend.Ir

open List Option

namespace Immediate

variable {value : Immediate} {type : DataType}

theorem word_of_isFloat (kind : value.isFloat = type.isFloat) : value.word type = value.bits := by
  unfold word
  cases value with
  | int value | float value => rw [← kind]; rfl

theorem isFloat_fit (value : Immediate) (type : DataType) :
    (value.fit type).isFloat = type.isFloat := by
  cases kind : type.isFloat <;> cases value <;> simp [fit, kind, isFloat]

theorem fit_of_isFloat (kind : value.isFloat = type.isFloat) : value.fit type = value := by
  cases value with
  | int value | float value => rw [fit, ← kind]; rfl

end Immediate

variable {value : Immediate} {loaded : Instr} {opcode : Opcode} {setting : Setting}

namespace Opcode

/-- The types of destination and sources are of kinds that fit each other. -/
def suits (dest first second : DataType) : Opcode → Bool
  | .loadImm | .load | .store => first.isFloat == dest.isFloat
  | opcode => opcode.accepts dest first second

variable {dest first second : DataType}

theorem suits_of_accepts
    (fits : opcode.accepts dest first second = true) : opcode.suits dest first second = true := by
  cases opcode <;> simp_all [suits, accepts]

theorem foldBinary?_sound {left right : Immediate}
    (one : left.isFloat = first.isFloat) (two : right.isFloat = second.isFloat)
    (fits : opcode.suits dest first second = true)
    (folds : opcode.foldBinary? left right = some value) :
    value.isFloat = dest.isFloat ∧ value.bits =
      opcode.onTwo .binary64 (first.isFloat || second.isFloat) left.bits right.bits := by
  rw [← one, ← two]
  cases left with
  | int left =>
    cases right with
    | int right =>
      cases opcode <;> cases folds <;>
        simp_all [suits, accepts, Immediate.isFloat, Immediate.bits, Immediate.ofBool, onTwo, onInts,
          Immediate.toWord]
    | float right => cases opcode <;> simp_all [suits, accepts, Immediate.isFloat, foldBinary?, foldFloat?]
  | float left =>
    cases right with
    | int right => cases opcode <;> simp_all [suits, accepts, Immediate.isFloat, foldBinary?, foldFloat?]
    | float right =>
      cases opcode <;> cases folds <;>
        simp_all [suits, accepts, Immediate.isFloat, Immediate.bits, Immediate.ofBool, onTwo, onFloats,
          FloatUnit.binary64, Immediate.toReal]

theorem foldUnary?_sound {source : Immediate}
    (one : source.isFloat = first.isFloat) (fits : opcode.suits dest first second = true)
    (folds : opcode.foldUnary? source = some value) :
    value.isFloat = dest.isFloat ∧
      value.bits = opcode.onOne .binary64 first.isFloat source.bits := by
  rw [← one]
  cases source with
  | int source =>
    cases opcode <;> cases folds <;>
      simp_all [suits, accepts, Immediate.isFloat, Immediate.bits, Immediate.ofBool, onOne,
        FloatUnit.binary64, Immediate.toReal, Immediate.isZero]
  | float source =>
    cases opcode <;> cases folds <;>
      simp_all [suits, accepts, Immediate.isFloat, Immediate.bits, onOne, FloatUnit.binary64,
        Immediate.toReal]

end Opcode

namespace Instr

/-- The instruction after folding. -/
def folding (instr : Instr) : Instr :=
  instr.fold?.getD instr

variable {instr : Instr} {scan : Scan}

theorem computes_of_folded? (folds : instr.folded? = some value) :
    instr.opcode.computes = true := by
  unfold folded? at folds
  split at folds
  · next binary => revert binary; cases instr.opcode <;> decide
  · split at folds
    · next isPure => revert isPure; cases instr.opcode <;> decide
    · cases folds

theorem not_dividesByZero_of_folded? (folds : instr.folded? = some value) :
    instr.dividesByZero = false := by
  unfold folded? at folds
  split at folds
  · split at folds
    · split at folds
      · cases folds
      · next nonzero => exact Bool.eq_false_iff.mpr nonzero
    · cases folds
  · next unary =>
      refine not_dividesByZero ?_
      revert unary
      cases instr.opcode <;> decide

theorem fold?_eq_some (folds : instr.fold? = some loaded) :
    ∃ value dest, instr.folded? = some value ∧ instr.dest = some dest ∧
      loaded = { loadImm dest (value.fit dest.type) with
        comment := instr.comment, line := instr.line } := by
  unfold fold? at folds
  split at folds
  · next value dest one two =>
      cases folds
      exact ⟨value, dest, one, two, rfl⟩
  · cases folds

/-- Literals among the sources are of the kinds of their types, and the types suit the operation. -/
structure Kinded (instr : Instr) : Prop where
  literals : ∀ value type, .immediate value type ∈ instr.sources → value.isFloat = type.isFloat
  typed : instr.opcode.suits (typeOf instr.dest) (typeOf instr.src1) (typeOf instr.src2) = true

theorem Regular.kinded (regular : instr.Regular scan) (strict : scan.strict) : instr.Kinded where
  literals _ _ source := regular.inputs _ (mem_append_left _ source) strict
  typed := Opcode.suits_of_accepts (regular.typed strict)

theorem Kinded.result_of_folded? (kinded : instr.Kinded) (folds : instr.folded? = some value)
    (floats : setting.floats = .binary64) (owns : String → Bool) (state : State) :
    value.isFloat = (typeOf instr.dest).isFloat ∧
      instr.result setting owns state = value.bits := by
  have typed := kinded.typed
  unfold folded? at folds
  split at folds
  · next binary =>
      split at folds
      · next left right one two =>
          split at folds
          · cases folds
          · obtain ⟨first, source⟩ := src1_of_immediate1? one
            obtain ⟨second, source'⟩ := src2_of_immediate2? two
            have kind : left.isFloat = first.isFloat :=
              kinded.literals _ _ (by simp [sources, source])
            have kind' : right.isFloat = second.isFloat :=
              kinded.literals _ _ (by simp [sources, source'])
            have fits : instr.opcode.suits (typeOf instr.dest) first second = true := by
              simpa [typeOf, source, source', Operand.type] using typed
            obtain ⟨same, bits⟩ := Opcode.foldBinary?_sound kind kind' fits folds
            refine ⟨same, ?_⟩
            rw [result, if_pos binary, onFloats_eq, bits]
            simp [Instr.first, Instr.second, source, source', typeOf, Operand.value, Operand.type,
              floats, Immediate.word_of_isFloat kind, Immediate.word_of_isFloat kind']
      · cases folds
  · next unary =>
      split at folds
      · obtain ⟨literal, one, folds⟩ := bind_eq_some_iff.mp folds
        obtain ⟨first, source⟩ := src1_of_immediate1? one
        have kind : literal.isFloat = first.isFloat :=
          kinded.literals _ _ (by simp [sources, source])
        have fits : instr.opcode.suits (typeOf instr.dest) first (typeOf instr.src2) = true := by
          simpa [typeOf, source, Operand.type] using typed
        obtain ⟨same, bits⟩ := Opcode.foldUnary?_sound kind fits folds
        refine ⟨same, ?_⟩
        rw [result, if_neg unary, bits]
        simp [Instr.first, firstType, source, Operand.value, Operand.type, floats,
          Immediate.word_of_isFloat kind]
      · cases folds

theorem recomputes_of_fold? (folds : instr.fold? = some loaded) : instr.Recomputes loaded := by
  obtain ⟨value, dest, literal, written, rfl⟩ := fold?_eq_some folds
  exact .other (computes_of_folded? literal) rfl written.symm nofun (.loadImm written ..)
    (not_dividesByZero_of_folded? literal)

theorem Regular.fold? (regular : instr.Regular scan) (folds : instr.fold? = some loaded) :
    loaded.Regular scan := by
  refine ⟨(recomputes_of_fold? folds).formed regular.formed, ?_, ?_⟩
  · obtain ⟨value, dest, literal, written, rfl⟩ := fold?_eq_some folds
    intro operand member
    have same : operand = .immediate (value.fit dest.type) dest.type := by
      simpa [Instr.inputs, sources, loadImm] using member
    rw [same]
    exact fun _ => value.isFloat_fit dest.type
  · obtain ⟨value, dest, literal, written, rfl⟩ := fold?_eq_some folds
    intro strict
    simp [isTyped, Opcode.accepts, loadImm, typeOf, Operand.type]

theorem Kinded.plan_fold? (kinded : instr.Kinded) (folds : instr.fold? = some loaded)
    (floats : setting.floats = .binary64) (owns : String → Bool) (state : State) :
    loaded.plan setting owns state = instr.plan setting owns state := by
  obtain ⟨value, dest, literal, written, rfl⟩ := fold?_eq_some folds
  have gives := Opcode.givesValue_of_computes (computes_of_folded? literal)
  obtain ⟨kind, same⟩ := kinded.result_of_folded? literal floats owns state
  have kind : value.isFloat = dest.type.isFloat := by rw [kind, written]; rfl
  rw [plan_of_givesValue setting owns state gives, same, givePlan, written]
  simp [plan, givePlan, loadImm, result, Instr.first, Opcode.isBinary, Opcode.isComparison,
    Opcode.onOne, Operand.value, Immediate.fit_of_isFloat kind, Immediate.word_of_isFloat kind]

theorem recomputes_folding (instr : Instr) : instr.Recomputes instr.folding := by
  unfold folding
  cases folds : instr.fold? with
  | none => exact .same
  | some loaded => exact recomputes_of_fold? folds

theorem Regular.folding (regular : instr.Regular scan) : instr.folding.Regular scan := by
  unfold Instr.folding
  cases folds : instr.fold? with
  | none => exact regular
  | some loaded => exact regular.fold? folds

theorem Kinded.plan_folding (kinded : instr.Kinded) (floats : setting.floats = .binary64)
    (owns : String → Bool) (state : State) :
    instr.folding.plan setting owns state = instr.plan setting owns state := by
  unfold Instr.folding
  cases folds : instr.fold? with
  | none => rfl
  | some loaded => exact kinded.plan_fold? folds floats owns state

end Instr

theorem foldConstants_code (code : List Instr) :
    (foldConstants code).code = code.map Instr.folding := by
  induction code with
  | nil => rfl
  | cons instr rest ih =>
    rw [foldConstants, map_cons, Instr.folding, ← ih]
    cases instr.fold? <;> rfl

theorem recomputes_foldConstants (code : List Instr) :
    Forall₂ Instr.Recomputes code (foldConstants code).code := by
  rw [foldConstants_code]
  exact forall₂_map_right_iff.mpr
    (forall₂_same.mpr fun instr _ => instr.recomputes_folding)

/-- Folded code is regular. -/
theorem Regular.foldConstants {scan : Scan} {code : List Instr} (regular : Regular scan code) :
    Regular scan (foldConstants code).code := by
  rw [foldConstants_code]
  induction code generalizing scan with
  | nil => trivial
  | cons instr rest ih =>
    rw [map_cons, Regular, instr.recomputes_folding.after]
    exact ⟨regular.1.folding, ih regular.2⟩

/-- The same state, in front of code before and after folding. -/
inductive FoldedAt : Point → Point → Prop where
  | intro {scan : Scan} {rest : List Instr} (regular : Regular scan rest) (strict : scan.strict)
      (state : State) : FoldedAt ⟨rest, state⟩ ⟨rest.map Instr.folding, state⟩

/-- A function matches itself after folding. -/
theorem matches_foldConstants (floats : setting.floats = .binary64) {function : Function}
    (regular : Regular (.empty True) function.code) :
    Matches setting function { function with code := (foldConstants function.code).code }
      FoldedAt := by
  have owns := owns_of_recomputes (recomputes_foldConstants function.code)
    (rfl : function.code = function.code)
    (rfl : { function with code := (Ir.foldConstants function.code).code }.code = _)
  refine .of_drops rfl ?_ ?_
  · intro state
    have here := FoldedAt.intro regular trivial state
    rwa [← foldConstants_code] at here
  · rintro _ _ ⟨here, strict, state⟩
    rename_i scan rest
    refine .inl ?_
    cases rest with
    | nil => exact ⟨rfl, rfl⟩
    | cons instr rest =>
      have later : (scan.after instr).strict := scan.strict_after instr ▸ strict
      refine Meets.of_formed here.1.formed here.1.folding.formed ?_ rfl rfl ?_ ?_ ?_
      · rw [owns]
        exact (here.1.kinded strict).plan_folding floats function.owns state
      · intro change events _
        exact .intro here.2 later _
      · intro name _
        rw [foldConstants_code, afterLabel_map fun instr => instr.recomputes_folding.marks]
        refine .map fun target found => ?_
        obtain ⟨scan, there, _, same⟩ := regular.afterLabel found
        exact .intro there (same ▸ trivial) state
      · intro _ globals value
        exact .intro here.2 later _

end ArmBackend.Ir
