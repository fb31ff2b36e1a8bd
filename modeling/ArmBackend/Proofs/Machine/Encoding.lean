import ArmBackend.Proofs.Machine.Arguments
import ArmBackend.Proofs.Machine.Control
import ArmBackend.Proofs.Machine.Structure

/-!
# Constants in instructions

Every number in an emitted instruction has room in its encoding.  Every short constant is
the number that the code asked for: a literal, a distance in the frame, or an amount of stack.
-/

namespace ArmBackend.Machine

open List

open ArmBackend.Frame

namespace Instr

/-- The numbers of the instruction have room in its encoding. -/
def Encodable : Instr → Prop
  | movConst _ value => HasOneChunk value
  | movz _ _ shift | movn _ _ shift | movk _ _ shift => shift ∈ [0, 16, 32, 48]
  | addImm _ _ imm | subImm _ _ imm | cmpImm _ imm => imm.digits < 4096
  | ldur _ _ offset | stur _ _ offset => -256 ≤ offset ∧ offset ≤ 255
  | ldr _ _ offset | str _ _ offset => 8 ∣ offset ∧ offset ≤ 32760
  | stpPre _ _ _ offset | ldpPost _ _ _ offset => 8 ∣ offset ∧ -512 ≤ offset ∧ offset ≤ 504
  | _ => True

/-- The short constant of an addition, subtraction or comparison. -/
def imm? : Instr → Option ArithImm
  | addImm _ _ imm | subImm _ _ imm | cmpImm _ imm => some imm
  | _ => none

end Instr

/-- The number that a short constant in the code of a function is there for. -/
inductive Denotes (function : Ir.Function) (layout : Layout) : Instr → Prop
  /-- the literal that an operation has as its second source -/
  | literal {source : Ir.Instr} {operand : Ir.Operand} {value : Ir.Immediate} {imm : ArithImm}
      {instr : Instr} (listed : source ∈ function.code) (second : source.src2 = some operand)
      (known : operand.immediate? = some value) (same : (imm.value : Int) = value.toWord.toInt)
      (form : ShortForm imm source.opcode instr) : Denotes function layout instr
  /-- the zero that a truth value is compared with to negate it -/
  | truth {source : Ir.Instr} {imm : ArithImm} (listed : source ∈ function.code)
      (negates : source.opcode = .not) (zero : imm.value = 0) (left : Reg) :
      Denotes function layout (.cmpImm left imm)
  /-- the offset of an array above the frame pointer -/
  | above {place : Ir.Location} {base : Int} {length : Nat} {imm : ArithImm}
      (found : layout.homes.get? place = some (.array base length)) (same : (imm.value : Int) = base)
      (dest : Reg) : Denotes function layout (.addImm dest .fp imm)
  /-- the distance of an array below the frame pointer -/
  | below {place : Ir.Location} {base : Int} {length : Nat} {imm : ArithImm}
      (found : layout.homes.get? place = some (.array base length)) (same : (imm.value : Int) = -base)
      (dest : Reg) : Denotes function layout (.subImm dest .fp imm)
  /-- the size of the frame -/
  | frame {imm : ArithImm} (same : imm.value = layout.size) :
      Denotes function layout (.subImm .sp .sp imm)
  /-- the stack that the arguments of a call take -/
  | reserve {before after : List Ir.Instr} {call : Ir.Instr} {imm : ArithImm}
      (split : function.code = before ++ call :: after) (calls : call.opcode = .call)
      (same : imm.value =
        Convention.outgoingArea (Site.argumentCount (Site.inOrder (pendingOf before)))) :
      Denotes function layout (.subImm .sp .sp imm)
  /-- the stack that is given back behind a call -/
  | release {before after : List Ir.Instr} {call : Ir.Instr} {imm : ArithImm}
      (split : function.code = before ++ call :: after) (calls : call.opcode = .call)
      (same : imm.value =
        Convention.outgoingArea (Site.argumentCount (Site.inOrder (pendingOf before)))) :
      Denotes function layout (.addImm .sp .sp imm)

/-- The instruction can be encoded, and its short constant is the one it is there for. -/
structure Fits (function : Ir.Function) (layout : Layout) (instr : Instr) : Prop where
  encodable : instr.Encodable
  denotes : ∀ imm, instr.imm? = some imm → Denotes function layout instr

theorem ArithImm.digits_lt_of_ofInt? {number : Int} {imm : ArithImm}
    (short : ArithImm.ofInt? number = some imm) : imm.digits < 4096 := by
  unfold ArithImm.ofInt? at short
  split at short
  · cases short
    simp only
    omega
  · split at short
    · cases short
      simp only
      omega
    · cases short

/-! ## Code of one instruction -/

variable {instr : Instr} {function : Ir.Function} {assembled : List Function}
  {functions : List Ir.Function} {globals : List Ir.Global}

section

variable {function : Ir.Function} {layout : Layout}

theorem Fits.plain (encodable : instr.Encodable) (none : instr.imm? = none) :
    Fits function layout instr :=
  ⟨encodable, fun imm some => by rw [none] at some; cases some⟩

theorem fits_of_isBare (bare : instr.isBare = true) : Fits function layout instr := by
  cases instr <;> first | exact .plain trivial rfl | cases bare

theorem fits_of_isBoundary (ends : instr.isBoundary = true) : Fits function layout instr := by
  cases instr <;> first | exact .plain trivial rfl | cases ends

theorem fitsUnscaled_iff {offset : Int} :
    fitsUnscaled offset = true ↔ -256 ≤ offset ∧ offset ≤ 255 :=
  decide_eq_true_iff

theorem fits_index {index : Nat} (small : index ≤ 4095) :
    8 ∣ 8 * index ∧ 8 * index ≤ 32760 :=
  ⟨Nat.dvd_mul_right 8 index, by omega⟩

variable (globals : List Ir.Global)

theorem moves_fits : Site.Moves ⟨layout, globals⟩ (fun _ => True) (Fits function layout) where
  spare _ _ := trivial
  home _ := trivial
  bare bare _ := fits_of_isBare bare
  const _ sets := by
    cases sets with
    | whole single => exact .plain single rfl
    | zeros bits listed | ones bits listed | keep bits listed => exact .plain listed rfl
  ldur _ near := .plain (fitsUnscaled_iff.mp near) rfl
  stur near := .plain (fitsUnscaled_iff.mp near) rfl
  ldr _ small := .plain (fits_index small) rfl
  str small := .plain (fits_index small) rfl
  array found _ short := by
    have number := ArithImm.value_of_ofInt? short
    have digits := ArithImm.digits_lt_of_ofInt? short
    split
    · exact ⟨digits, fun _ _ => .below found (by omega) _⟩
    · exact ⟨digits, fun _ _ => .above found (by omega) _⟩

theorem computes_fits {source : Ir.Instr} (listed : source ∈ function.code) :
    Site.Computes ⟨layout, globals⟩ source (fun _ => True) (Fits function layout) where
  toMoves := moves_fits globals
  literal second short form _ := by
    obtain ⟨value, known, short⟩ := Option.bind_eq_some_iff.mp short
    refine ⟨?_, fun _ _ => .literal listed second known (ArithImm.value_of_ofInt? short) form⟩
    cases form <;> exact ArithImm.digits_lt_of_ofInt? short
  truth negates := ⟨Nat.succ_pos _, fun _ _ => .truth listed negates rfl _⟩

theorem fits_prologue (few : layout.saved.length ≤ 10) :
    ∀ instr ∈ layout.prologue, Fits function layout instr := by
  have pair : (8 : Int) ∣ -16 ∧ (-512 : Int) ≤ -16 ∧ (-16 : Int) ≤ 504 := by decide
  refine (moves_fits []).prologue (.plain pair rfl) ?_ ?_
  · intro imm short
    exact ⟨ArithImm.digits_lt_of_ofInt? short,
      fun _ _ => .frame (Int.ofNat.inj (ArithImm.value_of_ofInt? short))⟩
  · intro entry member
    have index := (mem_zipIdx member).2.1
    exact .plain (fits_index (by omega)) rfl

theorem fits_epilogue (few : layout.saved.length ≤ 10) :
    ∀ instr ∈ layout.epilogue, Fits function layout instr := by
  unfold Layout.epilogue
  rw [forall_mem_append, forall_mem_map]
  constructor
  · intro entry member
    have index := (mem_zipIdx member).2.1
    exact .plain (fits_index (by omega)) rfl
  · simp only [forall_mem_cons]
    have pair : (8 : Int) ∣ 16 ∧ (-512 : Int) ≤ 16 ∧ (16 : Int) ≤ 504 := by decide
    exact ⟨.plain trivial rfl, .plain pair rfl, .plain trivial rfl, nofun⟩

theorem fits_outgoing {position offset : Nat} (near : position < 4104)
    (goes : Convention.outgoing? position = some offset) (source : Reg) :
    Fits function layout (.str source .sp offset) := by
  obtain ⟨late, rfl⟩ := Convention.outgoing?_eq_some goes (by unfold Convention.reach; omega)
  have eight : Convention.registerCount = 8 := rfl
  exact .plain (fits_index (by omega)) rfl

variable {before after : List Ir.Instr}

theorem emits_fits_call {call : Ir.Instr}
    (split : function.code = before ++ call :: after) (calls : call.opcode = .call)
    (near : ∀ entry ∈ pendingOf before, entry.1 < 4104) :
    (Site.call ⟨layout, globals⟩ (pendingOf before) call).Emits (fun _ => True)
      (Fits function layout) fun _ => True := by
  have moves : Site.Moves ⟨layout, globals⟩ (fun _ => True) (Fits function layout) :=
    moves_fits globals
  have ordered : ∀ entry ∈ Site.inOrder (pendingOf before), entry.1 < 4104 :=
    fun entry member => near entry ((mergeSort_perm _ _).mem_iff.mp member)
  refine .bind .required fun callee _ => .bind (.code (moves.reserve ?_)) fun _ _ =>
    .bind (moves.emits_stackArguments fun entry member offset goes source =>
      fits_outgoing (ordered entry member) goes source) fun _ _ =>
    .bind (moves.emits_registerArguments _) fun _ _ =>
    .bind (.code (forall_mem_singleton.mpr (.plain trivial rfl))) fun _ _ =>
    .bind (.code (moves.release ?_)) fun _ _ => moves.emits_takeResult _
  · exact fun imm short => ⟨ArithImm.digits_lt_of_ofInt? short,
      fun _ _ => .reserve split calls (Int.ofNat.inj (ArithImm.value_of_ofInt? short))⟩
  · exact fun imm short => ⟨ArithImm.digits_lt_of_ofInt? short,
      fun _ _ => .release split calls (Int.ofNat.inj (ArithImm.value_of_ofInt? short))⟩

theorem emits_fits_select {instr : Ir.Instr} (split : function.code = before ++ instr :: after)
    (near : ∀ entry ∈ pendingOf before, entry.1 < 4104) (few : layout.saved.length ≤ 10) :
    (Site.select ⟨layout, globals⟩ (pendingOf before) instr).Emits (fun _ => True)
      (Fits function layout) fun _ => True := by
  have listed : instr ∈ function.code := by simp [split]
  have computes : Site.Computes ⟨layout, globals⟩ instr (fun _ => True) (Fits function layout) :=
    computes_fits globals listed
  by_cases straight : instr.opcode ∈ [.call, .ret, .exit]
  · simp only [mem_cons, not_mem_nil, or_false] at straight
    rcases straight with opcode | opcode | opcode
    · simp only [Site.select, opcode]
      exact emits_fits_call globals split opcode near
    · simp only [Site.select, opcode]
      exact .bind (computes.emits_giveResult _) fun _ _ => .code (fits_epilogue few)
    · simp only [Site.select, opcode]
      exact .code (fits_epilogue few)
  · exact computes.emits_selectStraight (fun _ ends => fits_of_isBoundary ends) _ straight

end

/-! ## Functions and programs -/

/-- The arguments of calls have positions that the stack pointer reaches. -/
def NearArguments (function : Ir.Function) : Prop :=
  ∀ instr ∈ function.code, instr.opcode = .arg →
    ∀ position value, argument? instr = some (position, value) → position < 4104

theorem fits_selectCode {layout : Layout} (near : NearArguments function)
    (few : layout.saved.length ≤ 10) {before rest : List Ir.Instr}
    (split : function.code = before ++ rest) {code : List Instr}
    (selected : (selectCode ⟨layout, globals⟩ function.name (pendingOf before) rest).result =
      .ok code) : ∀ instr ∈ code, Fits function layout instr := by
  induction rest generalizing before code with
  | nil =>
    cases selected
    exact nofun
  | cons instr rest ih =>
    obtain ⟨first, others, head, tail, rfl⟩ := selectCode_cons selected
    have reach : ∀ entry ∈ pendingOf before, entry.1 < 4104 := by
      intro entry member
      obtain ⟨source, listed, passes, given⟩ := arg_of_mem_pendingOf member
      exact near source (by simp [split, listed]) passes entry.1 entry.2 given
    have here := (emits_fits_select globals split reach few).of_run (fun _ _ => trivial) head
    rw [← pendingOf_append] at tail
    exact forall_mem_append.mpr ⟨here, ih (by simp [split]) tail⟩

theorem fits_ofIr {assembled : Function} (near : NearArguments function)
    (done : (Function.ofIr globals function).result = .ok assembled) :
    ∃ layout, Layout.ofFunction function = .ok layout ∧
      ∀ instr ∈ assembled.body, Fits function layout instr := by
  obtain ⟨layout, laid, done⟩ := ofIr_ok done
  obtain ⟨code, selected, rfl⟩ := withLayout_ok done
  have few : layout.saved.length ≤ 10 := (Layout.sound_ofFunction laid).saved_sublist.length_le
  have middle := fits_selectCode near few (nil_append _).symm selected
  refine ⟨layout, laid, forall_mem_append.mpr
    ⟨forall_mem_append.mpr ⟨fits_prologue few, middle⟩, ?_⟩⟩
  split
  · exact nofun
  · exact fits_epilogue few

/-- The code of the function can be encoded, and its short constants are those they are there for. -/
def Function.Encodes (function : Ir.Function) (assembled : Function) : Prop :=
  ∃ layout, Layout.ofFunction function = .ok layout ∧
    ∀ instr ∈ assembled.body, Fits function layout instr

theorem encodes_ofIrs (near : ∀ function ∈ functions, NearArguments function)
    (done : (Function.ofIrs globals functions).result = .ok assembled) :
    Forall₂ Function.Encodes functions assembled := by
  induction functions generalizing assembled with
  | nil =>
    cases done
    exact .nil
  | cons function rest ih =>
    obtain ⟨first, others, head, tail, rfl⟩ := ofIrs_cons done
    obtain ⟨here, later⟩ := forall_mem_cons.mp near
    exact .cons (fits_ofIr here head) (ih later tail)

theorem encodes_tidyFunctions (rules : List Rule)
    (encodes : Forall₂ Function.Encodes functions assembled) :
    Forall₂ Function.Encodes functions (tidyFunctions rules assembled).functions := by
  induction encodes with
  | nil => exact .nil
  | @cons function assembled _ _ head _ ih =>
    obtain ⟨layout, laid, fits⟩ := head
    refine .cons ⟨layout, laid, fun instr member => ?_⟩ ih
    rcases (keepsEdges_tidyCode rules (withoutShortJumps assembled.body)).adds instr member with
      inside | ⟨dest, source, rfl⟩
    · exact fits instr (withoutShortJumps_subset _ inside)
    · exact .plain trivial rfl

/-- All code of a program can be encoded, before and after tidying, and all its short constants
are those they are there for. -/
theorem encodes_ofProgram {program : Ir.Program} {assembled : Program}
    (near : ∀ function ∈ program.functions, NearArguments function)
    (done : (Program.ofIr program).result = .ok assembled) :
    List.Forall₂ Function.Encodes program.functions assembled.functions ∧
      List.Forall₂ Function.Encodes program.functions assembled.tidy.1.functions := by
  unfold Program.ofIr at done
  cases made : (Function.ofIrs program.globals program.functions).result with
  | error fault =>
    simp only [made] at done
    cases done
  | ok functions =>
    simp only [made] at done
    cases done
    have encodes := encodes_ofIrs near made
    exact ⟨encodes, encodes_tidyFunctions _ encodes⟩

/-- An array whose distance has the shifted form, a shifted literal, and an argument on the stack. -/
def probe : Ir.Program where
  functions :=
    [{ name := "probe"
       parameters := [.param "p" .int]
       code :=
        [.allocArray (.var "row" .int) 512,
          .binary .add (.var "t" .int) (.param "p" .int) (.immediate (.int 8192) .int),
          .arg (.var "row" .int) 8,
          .call "other" none,
          .ret (some (.var "t" .int))] }]

theorem encodes_probe :
    (∀ function ∈ probe.functions, NearArguments function) ∧
      ∃ assembled, (Program.ofIr probe).result = .ok assembled ∧
        List.Forall₂ Function.Encodes probe.functions assembled.functions ∧
        List.Forall₂ Function.Encodes probe.functions assembled.tidy.1.functions := by
  have positions : ∀ function ∈ probe.functions, ∀ instr ∈ function.code,
      instr.opcode = .arg → ∀ entry ∈ (argument? instr).toList, entry.1 < 4104 := by decide
  have near : ∀ function ∈ probe.functions, NearArguments function :=
    fun function listed instr member passes position value given =>
      positions function listed instr member passes (position, value) (Option.mem_toList.mpr given)
  have fine : (Program.ofIr probe).result.toBool = true := by decide +kernel
  cases done : (Program.ofIr probe).result with
  | error fault =>
    rw [done] at fine
    cases fine
  | ok assembled => exact ⟨near, assembled, rfl, encodes_ofProgram near done⟩

end ArmBackend.Machine
