import ArmBackend.Proofs.Machine.Operands

/-!
# What operations compute

The code of an operation computes what the operation means, on integers as on floats: a
comparison leaves its truth, a remainder comes from a quotient, and a comparison of floats
fails if one of them is not a number.
-/

namespace ArmBackend.Machine

open List

open ArmBackend.Frame

namespace Confined

variable {registers : List Reg} {spans : List Span} {first second : State}

variable (confined : Confined registers spans first second)
include confined

theorem set {reg : Reg} (listed : reg ∈ registers) (value : Word) :
    Confined registers spans first (second.set reg value) :=
  confined.trans ((confined_set second reg value).mono (by simpa using listed) (nil_subset _))

theorem setFlags (flags : Flags) : Confined registers spans first (second.setFlags flags) :=
  confined.trans ((confined_setFlags second flags).mono (nil_subset _) (nil_subset _))

theorem setFloat {float : FloatReg} (passes : float ∈ FloatReg.passing) (value : Word) :
    Confined registers spans first (second.setFloat float value) :=
  confined.trans
    ((confined_setFloat second value passes).mono (nil_subset _) (nil_subset _))

end Confined

/-! ## Comparisons -/

variable (left right : Word)

theorem slt_eq_signs :
    ((left - right).msb != (left.msb != right.msb && (left - right).msb != left.msb)) =
      left.slt right := by
  have bound := left.isLt
  have bound' := right.isLt
  rw [BitVec.slt_eq_decide, BitVec.toInt_eq_toNat_cond, BitVec.toInt_eq_toNat_cond,
    BitVec.msb_eq_decide, BitVec.msb_eq_decide, BitVec.msb_eq_decide, BitVec.toNat_sub]
  generalize left.toNat = first at *
  generalize right.toNat = second at *
  rw [Bool.eq_iff_iff]
  by_cases one : 2 ^ 63 ≤ first <;> by_cases two : 2 ^ 63 ≤ second <;>
    by_cases three : 2 ^ 63 ≤ (2 ^ 64 - second + first) % 2 ^ 64 <;>
      (simp only [one, two, three]; simp; omega)

theorem sle_eq : left.sle right = !right.slt left := by
  rw [BitVec.slt_eq_decide, BitVec.sle_eq_decide, Bool.eq_iff_iff]
  simp

theorem sle_eq_or : left.sle right = (left == right || left.slt right) := by
  rw [BitVec.slt_eq_decide, BitVec.sle_eq_decide, Bool.eq_iff_iff]
  simp only [decide_eq_true_eq, Bool.or_eq_true, beq_iff_eq]
  constructor
  · intro le
    rcases Int.lt_or_eq_of_le le with lt | same
    · exact .inr lt
    · exact .inl (BitVec.eq_of_toInt_eq same)
  · rintro (rfl | lt)
    · exact Int.le_refl _
    · exact Int.le_of_lt lt

variable {opcode : Ir.Opcode} {free : List Reg}

theorem holds_ofInt (compares : opcode.isComparison = true) (left right : Word) :
    Word.ofBool ((Cond.ofInt opcode).holds (.ofWords left right)) = opcode.onInts left right := by
  have less := slt_eq_signs left right
  have unequal (one two : Bool) : (one == two) = !(one != two) := by cases one <;> cases two <;> rfl
  cases opcode with
  | eq | ne => rfl
  | lt => simp only [Cond.ofInt, Cond.holds, Flags.ofWords, Ir.Opcode.onInts, less]
  | le => simp only [Cond.ofInt, Cond.holds, Flags.ofWords, Ir.Opcode.onInts, less, sle_eq_or]
  | gt =>
    simp only [Cond.ofInt, Cond.holds, Flags.ofWords, Ir.Opcode.onInts, unequal, less,
      ← Bool.not_or]
    rw [← sle_eq_or, sle_eq, Bool.not_not]
  | ge =>
    simp only [Cond.ofInt, Cond.holds, Flags.ofWords, Ir.Opcode.onInts, unequal, less, sle_eq]
  | _ => cases compares

theorem holds_ofFloat (compares : opcode.isComparison = true) (order : FloatOrder) :
    (Cond.ofFloat opcode).holds order.flags = order.satisfies opcode := by
  cases opcode with
  | eq | ne | lt | le | gt | ge => cases order <;> rfl
  | _ => cases compares

/-! ## Code of operations -/

theorem srem_eq_sub : left - left.sdiv right * right = left.srem right := by
  have quotient : left.sdiv right = BitVec.ofInt 64 (left.toInt.tdiv right.toInt) :=
    BitVec.eq_of_toInt_eq (by rw [BitVec.toInt_sdiv, BitVec.toInt_ofInt])
  have remainder : left.srem right = BitVec.ofInt 64 (left.toInt.tmod right.toInt) := by
    rw [← BitVec.toInt_srem, BitVec.ofInt_toInt]
  rw [remainder, Int.tmod_def, Int.sub_eq_add_neg, BitVec.ofInt_add, BitVec.ofInt_neg,
    BitVec.ofInt_mul, ← quotient, BitVec.ofInt_toInt, BitVec.ofInt_toInt, BitVec.mul_comm,
    BitVec.sub_eq_add_neg]

section

variable (platform : Platform) (machine : State) {dest left right : Reg}

theorem unaryCode_brings (source : Reg) (single : opcode ∈ [.neg, .not, .intToFloat, .floatToInt])
    (isFloat : Bool) (named : dest ≠ .zr) :
    Brings dest (opcode.onOne platform.floatUnit isFloat (machine.get source)) [] machine
      (execAll platform (unaryCode opcode isFloat dest source) machine) := by
  have own : dest ∈ [dest] := mem_singleton_self _
  have passes : FloatReg.first ∈ FloatReg.passing := by decide
  simp only [mem_cons, not_mem_nil, or_false] at single
  rcases single with rfl | rfl | rfl | rfl
  · cases isFloat with
    | true =>
      refine ⟨?_, (((Confined.refl ..).setFloat passes _).setFloat passes _).set own _⟩
      simp [unaryCode, Instr.exec, named, Ir.Opcode.onOne, Platform.floatUnit]
    | false => exact brings_set named _ machine _
  · refine ⟨?_, ((Confined.refl ..).setFlags _).set own _⟩
    simp [unaryCode, Instr.exec, named, Ir.Opcode.onOne, Cond.holds, Flags.ofWords, ArithImm.value]
  · refine ⟨?_, ((Confined.refl ..).setFloat passes _).set own _⟩
    simp [unaryCode, Instr.exec, named, Ir.Opcode.onOne, Platform.floatUnit]
  · refine ⟨?_, ((Confined.refl ..).setFloat passes _).set own _⟩
    simp [unaryCode, Instr.exec, named, Ir.Opcode.onOne, Platform.floatUnit]

theorem floatCode_brings (left right : Reg) (binary : opcode.isBinary = true) (named : dest ≠ .zr) :
    Brings dest (opcode.onFloats platform.floatUnit (machine.get left) (machine.get right)) []
      machine (execAll platform (floatCode opcode dest left right) machine) := by
  have own : dest ∈ [dest] := mem_singleton_self _
  have one : FloatReg.first ∈ FloatReg.passing := by decide
  have two : FloatReg.second ∈ FloatReg.passing := by decide
  have three : FloatReg.third ∈ FloatReg.passing := by decide
  have start : Confined [dest] [] machine
      ((machine.setFloat .first (machine.get left)).setFloat .second
        (machine.get right)) := ((Confined.refl ..).setFloat one _).setFloat two _
  have differ : FloatReg.first ≠ .second := by decide
  have differ' : FloatReg.first ≠ .third := by decide
  have differ'' : FloatReg.second ≠ .third := by decide
  -- Both words are in float registers once the first two instructions are done.
  have first : ((machine.setFloat .first (machine.get left)).setFloat .second
      (machine.get right)).floats .first = machine.get left := by
    rw [State.floats_setFloat_ne _ _ differ, State.floats_setFloat_self]
  have computed (op : FloatOp) :
      Brings dest (platform.binary op (machine.get left) (machine.get right)) [] machine
        (execAll platform ([.fmovTo .first left, .fmovTo .second right] ++
          [.float op .first .first .second, .fmovFrom dest .first]) machine) := by
    refine ⟨?_, (start.setFloat one _).set own _⟩
    simp [Instr.exec, named, first]
  have compared (compares : opcode.isComparison = true) :
      Brings dest (.ofBool ((platform.compare (machine.get left) (machine.get right)).satisfies opcode))
        [] machine (execAll platform ([.fmovTo .first left, .fmovTo .second right] ++
          [.fcmp .first .second, .cset dest (.ofFloat opcode)]) machine) := by
    rw [← holds_ofFloat compares]
    refine ⟨?_, (start.setFlags _).set own _⟩
    simp [Instr.exec, named, first]
  cases opcode with
  | add => exact computed .add
  | sub => exact computed .sub
  | mul => exact computed .mul
  | div => exact computed .div
  | mod =>
    refine ⟨?_, ((((start.setFloat three _).setFloat three _).setFloat one _).set own _)⟩
    simp [floatCode, Instr.exec, named, first, Ir.Opcode.onFloats, Platform.floatUnit,
      State.floats_setFloat_ne _ _ differ', State.floats_setFloat_ne _ _ differ'']
  | and | or =>
    refine ⟨?_, start.set own _⟩
    simp [floatCode, logical, Ir.Opcode.isComparison, Instr.exec, named, Ir.Opcode.onFloats,
      IntOp.apply]
  | eq | ne | lt | le | gt | ge => exact compared rfl
  | _ => cases binary

theorem constCode?_brings {imm : ArithImm} {code : List Instr}
    (short : constCode? opcode dest left imm = some code) (named : dest ≠ .zr) :
    Brings dest (opcode.onInts (machine.get left) (BitVec.ofNat 64 imm.value)) [] machine
      (execAll platform code machine) := by
  unfold constCode? at short
  split at short
  · cases short
    exact brings_set named _ machine _
  · cases short
    exact brings_set named _ machine _
  · split at short
    · next compares =>
        cases short
        rw [← holds_ofInt compares]
        refine ⟨?_, ((Confined.refl ..).setFlags _).set (mem_singleton_self _) _⟩
        simp [Instr.exec, named]
    · cases short

theorem leads_intCode (binary : opcode.isBinary = true) (scratch : free <:+ Reg.scratch)
    (named : dest ≠ .zr) (one : left ∉ working free) (two : right ∉ working free) :
    (intCode opcode dest left right).Leads platform free machine fun _ _ after =>
      Brings dest (opcode.onInts (machine.get left) (machine.get right)) (working free) machine
        after := by
  have simple (value : Word) :
      Brings dest value (working free) machine (machine.set dest value) :=
    brings_set named value machine _
  cases opcode with
  | add | sub | mul | div | and | or => exact .code (simple _)
  | mod =>
    refine .bind (.scratch fun quotient rest next => .code ?_)
    have taken := taken_of_scratch scratch next
    have listed : quotient ∈ dest :: working free := mem_cons_of_mem _ taken.mem_working
    have apart (other : Reg) (outside : other ∉ working free) : other ≠ quotient := by
      rintro rfl
      exact outside taken.mem_working
    refine ⟨?_, (((Confined.refl ..).set listed _).set listed _).set (mem_cons_self ..) _⟩
    simp [Instr.exec, named, taken.named, IntOp.apply, State.get_set_ne _ _ (apart left one),
      State.get_set_ne _ _ (apart right two), Ir.Opcode.onInts, srem_eq_sub]
  | eq | ne | lt | le | gt | ge =>
    refine .code ?_
    rw [← holds_ofInt rfl]
    refine ⟨?_, ((Confined.refl ..).setFlags _).set (mem_cons_self ..) _⟩
    simp [Instr.exec, named]
  | _ => cases binary

end

/-! ## Operations on operands -/

namespace Placement

variable {placed : Placement} {machine : State} {state : Ir.State} {instr : Ir.Instr}

theorem confined_target {others : List Reg} {target : Reg} {middle after : State}
    (scratch : free <:+ Reg.scratch) (confined : Confined (working free) [] machine middle)
    (confined' : Confined (target :: others) [] middle after) (few : others ⊆ Reg.temporaries) :
    Confined (target :: Reg.temporaries) [] machine after := by
  refine (confined.widen ?_).trans (confined'.widen ?_)
  · exact List.Subset.trans (working_subset_temporaries scratch) (subset_cons_self ..)
  · exact cons_subset_cons _ few

theorem leads_unary (single : instr.opcode ∈ [.neg, .not, .intToFloat, .floatToInt])
    (holds : placed.Holds machine state)
    (reads : ∀ operand ∈ instr.sources, placed.Reads (machine.get .fp) state operand) :
    (placed.site.unary instr).Leads placed.platform Reg.scratch machine fun _ _ after =>
      ∃ dest, instr.dest = some dest ∧
        placed.Delivers state dest (instr.result placed.setting placed.frames state) machine
          after := by
  have scratch := suffix_refl Reg.scratch
  refine .bind (.required fun dest written => .bind (.required fun operand source => ?_))
  refine .bind ((leads_load scratch holds (reads operand (by simp [Ir.Instr.sources, source]))).mono
    fun register free middle post => ?_)
  obtain ⟨fewer, confined, same, spared⟩ := post
  refine .bind ((leads_target (fewer.trans scratch)).mono fun target free' after post => ?_)
  obtain ⟨rfl, isTarget⟩ := post
  obtain ⟨named, _, _⟩ := isTarget.spared (fewer.trans scratch)
  have brings : Brings target _ _ _ _ :=
    unaryCode_brings placed.platform after register single operand.type.isFloat named
  have result : instr.result placed.setting placed.frames state =
      instr.opcode.onOne placed.platform.floatUnit operand.type.isFloat (after.get register) := by
    have unary : instr.opcode.isBinary = false := by
      revert single
      cases instr.opcode <;> decide
    rw [same]
    simp [Ir.Instr.result, unary, Ir.Instr.firstType, Ir.Instr.first, source, Placement.setting,
      Placement.value]
  refine .bind (.code ((leads_deliver state (fewer.trans scratch) isTarget
    (confined_target scratch confined brings.confined (nil_subset _))).mono
      fun _ _ final delivers => ⟨dest, written, ?_⟩))
  rwa [brings.get_eq, ← result] at delivers

theorem leads_intBinary (binary : opcode.isBinary = true) {operand : Ir.Operand}
    (scratch : free <:+ Reg.scratch) {dest left : Reg} (named : dest ≠ .zr)
    (spared : left ∉ working free) (holds : placed.Holds machine state)
    (reads : placed.Reads (machine.get .fp) state operand) (whole : operand.type.isFloat = false) :
    (placed.site.intBinary opcode dest left operand).Leads placed.platform free machine
      fun _ _ after => Brings dest
        (opcode.onInts (machine.get left) (placed.value state operand)) (working free) machine
          after := by
  unfold Site.intBinary
  split
  · next code short =>
      obtain ⟨imm, constant, found⟩ := Option.bind_eq_some_iff.mp short
      have value : BitVec.ofNat 64 imm.value = placed.value state operand := by
        cases operand with
        | immediate literal type =>
          have number := ArithImm.value_of_ofInt? constant
          have isInt : type.isFloat = false := whole
          rw [← BitVec.ofInt_natCast, number, BitVec.ofInt_toInt]
          simp [Placement.value, Ir.Operand.value, Ir.Immediate.word, isInt]
        | _ => cases constant
      rw [← value]
      exact .code ((constCode?_brings placed.platform machine found named).mono (nil_subset _))
  · refine .bind ((leads_load scratch holds reads).mono fun right free' middle post => ?_)
    obtain ⟨fewer, confined, same, spared'⟩ := post
    have kept : middle.get left = machine.get left := confined.get_eq left spared
    refine (leads_intCode placed.platform middle binary (fewer.trans scratch) named
      (fun inside => spared (working_subset fewer inside)) spared').mono fun _ _ after brings => ?_
    rw [kept, same] at brings
    exact (brings.mono (working_subset fewer)).after confined

theorem leads_binary (binary : instr.opcode.isBinary = true) (holds : placed.Holds machine state)
    (reads : ∀ operand ∈ instr.sources, placed.Reads (machine.get .fp) state operand) :
    (placed.site.binary instr).Leads placed.platform Reg.scratch machine fun _ _ after =>
      ∃ dest, instr.dest = some dest ∧
        placed.Delivers state dest (instr.result placed.setting placed.frames state) machine
          after := by
  have scratch := suffix_refl Reg.scratch
  refine .bind (.required fun dest written => .bind (.required fun first one =>
    .bind (.required fun second two => ?_)))
  have reads_first := reads first (by simp [Ir.Instr.sources, one])
  have reads_second := reads second (by simp [Ir.Instr.sources, two])
  have result : instr.result placed.setting placed.frames state =
      instr.opcode.onTwo placed.platform.floatUnit (first.type.isFloat || second.type.isFloat)
        (placed.value state first) (placed.value state second) := by
    simp [Ir.Instr.result, binary, Ir.Instr.onFloats, Ir.Instr.sources, Ir.Instr.first,
      Ir.Instr.second, one, two, Placement.setting, Placement.value]
  refine .bind ((leads_load scratch holds reads_first).mono fun left free middle post => ?_)
  obtain ⟨fewer, confined, same, spared⟩ := post
  refine .bind ((leads_target (fewer.trans scratch)).mono fun target free' after post => ?_)
  obtain ⟨rfl, isTarget⟩ := post
  obtain ⟨named, _, spared'⟩ := isTarget.spared (fewer.trans scratch)
  have spares := placed.spares_working scratch
  have holds' := holds.keep spares confined
  have reads' : placed.Reads (after.get .fp) state second :=
    (confined.get_eq _ spares.fp).symm ▸ reads_second
  have fewer' := isTarget.fewer.trans (fewer.trans scratch)
  have spared_left : left ∉ working free' := fun inside =>
    spared (working_subset isTarget.fewer inside)
  -- What remains is to deliver what was computed in the register of the destination.
  have deliver {value : Word} {final : State} {rest : List Reg}
      (brings : Brings target value (working free') after final)
      (same : value = instr.result placed.setting placed.frames state) :
      (placed.site.store target dest).Leads placed.platform rest final fun _ _ final' =>
        ∃ dest, instr.dest = some dest ∧ placed.Delivers state dest
          (instr.result placed.setting placed.frames state) machine final' := by
    refine (leads_deliver state (fewer.trans scratch) isTarget (confined_target scratch confined
      brings.confined (working_subset_temporaries fewer'))).mono fun _ _ _ delivers =>
        ⟨dest, written, ?_⟩
    rwa [brings.get_eq, same] at delivers
  split
  · next floats =>
      refine .bind ((leads_load fewer' holds' reads').mono fun right rest final post => ?_)
      obtain ⟨_, confined', same', _⟩ := post
      have kept : final.get left = after.get left := confined'.get_eq left spared_left
      have brings : Brings target _ _ _ _ :=
        floatCode_brings placed.platform final left right binary named
      refine .bind (.code (deliver ((brings.mono (nil_subset _)).after confined') ?_))
      rw [result, kept, same, same', Ir.Opcode.onTwo, if_pos floats]
  · next ints =>
      have whole : first.type.isFloat = false ∧ second.type.isFloat = false := by simpa using ints
      refine .bind ((leads_intBinary binary fewer' named spared_left holds' reads' whole.2).mono
        fun _ rest final brings => deliver brings ?_)
      rw [result, same, Ir.Opcode.onTwo, if_neg ints]

end Placement

end ArmBackend.Machine
