import ArmBackend.Machine.OfProgram
import ArmBackend.Proofs.Frame.Layout
import ArmBackend.Proofs.Passes.Consumption

/-!
# Faults of instructions

What an instruction must be like, and what homes its operands must have, for its emission not
to end in a cause of given kinds.  Scratch registers are counted on the way.  A value takes one
to be held in, and one more if it is an element: for its index, or for a literal index that is
far away.  So an operation on two values takes six of the seven at most, as long as no index is
an element itself.
-/

namespace ArmBackend.Machine

open List Option

open ArmBackend.Frame (Home Layout)

/-- The kinds of causes that are ruled out, next to a lack of scratch registers. -/
structure Guard where
  /-- operands without homes -/
  homes : Prop
  /-- malformed instructions -/
  parts : Prop
  /-- elements of arrays that nothing is known of -/
  arrays : Prop

def Guard.Bars (guard : Guard) : Cause → Prop
  | .noScratch => True
  | .noHome _ => guard.homes
  | .malformed => guard.parts
  | .unknownArray _ => guard.arrays

variable {cause : Cause} {function : Ir.Function} {value operand : Ir.Operand}
  {globals : List Ir.Global} {pending : Pending}

namespace Emit

/-- From so many scratch registers the step ends in no cause that is barred.  It leaves so many of
them, and has a proper result. -/
def Spares {α : Type} (step : Emit α) (guard : Guard) (before after : Nat)
    (proper : α → Prop) : Prop :=
  ∀ free, before ≤ free.length →
    match step free with
    | .error cause => ¬ guard.Bars cause
    | .ok emitted => after ≤ emitted.free.length ∧ proper emitted.value

namespace Spares

variable {α β : Type} {guard : Guard} {n before after : Nat} {proper : α → Prop}

theorem done {value : α} (holds : proper value) : (Emit.done value).Spares guard n n proper :=
  fun _ enough => ⟨enough, holds⟩

theorem code (instrs : List Instr) : (Emit.code instrs).Spares guard n n fun _ => True :=
  fun _ enough => ⟨enough, trivial⟩

theorem fail (fine : ¬ guard.Bars cause) :
    (Emit.fail cause : Emit α).Spares guard before after proper :=
  fun _ _ => fine

theorem scratch : Emit.scratch.Spares guard (n + 1) n fun _ => True := by
  intro free enough
  cases free with
  | nil => exact absurd enough (Nat.not_succ_le_zero n)
  | cons reg rest => exact ⟨Nat.le_of_succ_le_succ enough, trivial⟩

theorem refill : Emit.refill.Spares guard n 7 fun _ => True :=
  fun _ _ => ⟨Nat.le_refl 7, trivial⟩

theorem required {part : Option α} (given : guard.parts → part.isSome = true) :
    (Emit.required part).Spares guard n n fun value => part = some value := by
  cases part with
  | none => exact fail fun malformed => Bool.false_ne_true (given malformed)
  | some value => exact done rfl

theorem mono {step : Emit α} (spares : step.Spares guard before after proper) {more fewer : Nat}
    (enough : before ≤ more) (fits : fewer ≤ after) : step.Spares guard more fewer proper := by
  intro free count
  have result := spares free (Nat.le_trans enough count)
  cases emits : step free with
  | error cause =>
    rw [emits] at result
    exact result
  | ok emitted =>
    rw [emits] at result
    exact ⟨Nat.le_trans fits result.1, result.2⟩

theorem ends (instrs : List Instr) (fits : after ≤ before) :
    (Emit.code instrs).Spares guard before after fun _ => True :=
  (code instrs).mono (Nat.le_refl _) fits

theorem gives {value : α} (holds : proper value) (fits : after ≤ before) :
    (Emit.done value).Spares guard before after proper :=
  (done holds).mono (Nat.le_refl _) fits

theorem bind {between : Nat} {proper' : β → Prop} {first : Emit α} {next : α → Emit β}
    (one : first.Spares guard before between proper)
    (two : ∀ value, proper value → (next value).Spares guard between after proper') :
    (first >>= next).Spares guard before after proper' := by
  intro free enough
  have head := one free enough
  have unfolded : (first >>= next) free = andThen first next free := rfl
  rw [unfolded, andThen]
  cases emits : first free with
  | error cause =>
    rw [emits] at head
    exact head
  | ok emitted =>
    rw [emits] at head
    have tail := two emitted.value head.2 emitted.free head.1
    dsimp only
    cases emits' : next emitted.value emitted.free with
    | error | ok =>
      rw [emits'] at tail
      exact tail

end Spares

end Emit

/-- The instruction has the parts that its operation asks for. -/
structure Complete (instr : Ir.Instr) : Prop extends instr.Whole where
  named : instr.opcode.isBoundary = true → instr.label.isSome = true
  dest : instr.opcode.computes = true ∨ instr.opcode = .store → instr.dest.isSome = true
  element : instr.opcode = .arrayStore →
    ∃ array index type, instr.dest = some (.element array index type)
  position : instr.opcode = .arg → instr.immediate2?.isSome = true

namespace Site

/-- The value of the operand can be had. -/
structure Reads (site : Site) (guard : Guard) (operand : Ir.Operand) : Prop where
  flat : operand.isFlat = true
  placed : guard.homes → ∀ place ∈ operand.places,
    ∃ home, site.layout.homes.get? place = some home
  direct : guard.arrays → operand.isElement = false

/-- The operand can be given a value. -/
structure Writes (site : Site) (guard : Guard) (dest : Ir.Operand) : Prop where
  placed : guard.homes → dest.isTemp = true ∨ dest.isVariable = true
  /-- a value does not go to an array -/
  scalar : guard.parts → ∀ place ∈ dest.places, ∀ base length,
    site.layout.homes.get? place ≠ some (.array base length)

/-- The instruction has what its emission asks for. -/
structure Serves (site : Site) (guard : Guard) (instr : Ir.Instr) : Prop where
  reads : ∀ operand ∈ instr.operands, site.Reads guard operand
  writes : ∀ dest ∈ instr.written?, site.Writes guard dest
  parts : guard.parts → Complete instr

section

variable {site : Site} {guard : Guard} {n : Nat}

/-- A place that an operand names has a home. -/
theorem Reads.home (reads : site.Reads guard operand) {place : Ir.Location}
    (named : operand.location? = some place) (own : place ∈ operand.places) :
    (site.home operand).Spares guard n n fun home => site.layout.homes.get? place = some home := by
  rw [Site.home, named, bind_some]
  cases found : site.layout.homes.get? place with
  | some home => exact .done rfl
  | none =>
    refine .fail fun missing => ?_
    obtain ⟨home, here⟩ := reads.placed missing place own
    cases found.symm.trans here

theorem Reads.loadDirect (reads : site.Reads guard operand) (direct : operand.isElement = false)
    (dest : Reg) : (site.loadInto dest operand).Spares guard n n fun _ => True := by
  have held {place : Ir.Location} (named : operand.location? = some place)
      (own : place ∈ operand.places) :
      (do let home ← site.home operand; .code (loadHome dest home)).Spares guard n n
        fun _ => True :=
    .bind (reads.home named own) fun home _ => .code _
  cases operand with
  | temp _ _ | var _ _ | param _ _ => exact held rfl (mem_singleton_self _)
  | element _ _ _ => cases direct
  | immediate _ _ | label _ _ | global _ _ => exact .code _

/-- An index takes a register unless it is known. -/
theorem Reads.indexBy {array : String} {index : Ir.Operand} {type : DataType}
    (reads : site.Reads guard (.element array index type)) {β : Type} {next : Index → Emit β}
    {proper : β → Prop} {after : Nat}
    (const : ∀ value, (next (.const value)).Spares guard (n + 1) after proper)
    (reg : ∀ register, (next (.reg register)).Spares guard n after proper) :
    (site.indexBy index (fun register => site.loadInto register index) >>= next).Spares guard (n + 1)
      after proper := by
  have direct : index.isElement = false := Bool.not_eq_true' _ ▸ reads.flat
  have inner : site.Reads guard index := by
    refine ⟨?_, reads.placed, fun _ => direct⟩
    cases index <;> first | rfl | cases direct
  unfold Site.indexBy
  split
  · next value _ => exact .bind (.done (rfl : _ = Index.const _)) fun _ same => same ▸ const _
  · next register _ =>
      refine .bind (.done (rfl : _ = Index.reg _)) fun _ same => same ▸ ?_
      exact (reg _).mono (Nat.le_succ n) (Nat.le_refl _)
  · have fetched : (do
          let register ← Emit.scratch
          site.loadInto register index
          return .reg register : Emit Index).Spares guard (n + 1) n
        fun index => ∃ register, index = .reg register :=
      .bind .scratch fun register _ => .bind (inner.loadDirect direct register) fun _ _ =>
        .done ⟨register, rfl⟩
    refine .bind fetched ?_
    rintro _ ⟨register, rfl⟩
    exact reg register

section

variable (loose : ¬ guard.arrays)
include loose

theorem spares_const (array : String) (value : Word) :
    (site.element array (.const value)).Spares guard (n + 1) n fun _ => True := by
  unfold Site.element
  split
  · simp only [frameElement]
    split
    · exact .gives trivial (Nat.le_succ n)
    · exact .bind .scratch fun _ _ => .bind (.code _) fun _ _ => .bind (.code _) fun _ _ =>
        .done trivial
  · split
    · refine .bind (.code _) fun _ _ => ?_
      dsimp only
      split
      · exact .gives trivial (Nat.le_succ n)
      · exact .bind (.code _) fun _ _ => .gives trivial (Nat.le_succ n)
    · exact .fail loose

theorem spares_reg (array : String) (register : Reg) :
    (site.element array (.reg register)).Spares guard n n fun _ => True := by
  unfold Site.element
  split
  · exact .bind (.code _) fun _ _ => .done trivial
  · split
    · exact .bind (.code _) fun _ _ => .done trivial
    · exact .fail loose

end

section

variable {operand : Ir.Operand} (reads : site.Reads guard operand)
include reads

theorem Reads.loadInto (dest : Reg) :
    (site.loadInto dest operand).Spares guard (n + 1) n fun _ => True := by
  cases element : operand.isElement with
  | false => exact (reads.loadDirect element dest).mono (Nat.le_refl _) (Nat.le_succ n)
  | true =>
    cases operand with
    | element array index type =>
      have loose : ¬ guard.arrays := fun arrays => Bool.noConfusion (reads.direct arrays)
      rw [Site.loadInto]
      exact reads.indexBy
        (fun value => .bind (spares_const loose array value) fun _ _ => .code _)
        fun register => .bind (spares_reg loose array register) fun _ _ => .code _
    | _ => cases element

theorem Reads.load : (site.load operand).Spares guard (n + 2) n fun _ => True := by
  unfold Site.load
  split
  · exact .gives trivial (Nat.le_add_right n 2)
  · exact .bind .scratch fun register _ => .bind (reads.loadInto register) fun _ _ =>
      .done trivial

theorem Reads.elementOf (element : guard.parts → operand.isElement = true) :
    (site.elementOf operand).Spares guard (n + 1) n fun _ => True := by
  cases operand with
  | element array index type =>
    have loose : ¬ guard.arrays := fun arrays => Bool.noConfusion (reads.direct arrays)
    exact reads.indexBy (spares_const loose array) (spares_reg loose array)
  | _ => exact .fail fun malformed => Bool.false_ne_true (element malformed)

end

theorem spares_target (dest : Ir.Operand) :
    (site.target dest).Spares guard (n + 1) n fun _ => True := by
  unfold Site.target
  split
  · exact .gives trivial (Nat.le_succ n)
  · exact .scratch

variable {dest : Ir.Operand}

theorem Writes.store (writes : site.Writes guard dest)
    (reads : site.Reads guard dest) (source : Reg) :
    (site.store source dest).Spares guard n n fun _ => True := by
  have held {place : Ir.Location} (named : dest.location? = some place)
      (own : place ∈ dest.places) :
      (do let home ← site.home dest; storeHome source home).Spares guard n n fun _ => True := by
    refine .bind (reads.home named own) fun home found => ?_
    cases home with
    | reg _ | slot _ => exact .code _
    | array base length =>
      exact .fail fun malformed => writes.scalar malformed place own base length found
  have nowhere (other : dest.isTemp = false ∧ dest.isVariable = false)
      (missing : dest.location? = none) :
      (do let home ← site.home dest; storeHome source home).Spares guard n n fun _ => True := by
    have failed : (site.home dest).Spares guard n n fun _ => False := by
      rw [Site.home, missing]
      refine .fail fun noHome => ?_
      rcases writes.placed noHome with temp | named
      · cases other.1.symm.trans temp
      · cases other.2.symm.trans named
    exact .bind failed fun _ impossible => impossible.elim
  cases dest with
  | temp _ _ | var _ _ | param _ _ => exact held rfl (mem_singleton_self _)
  | global _ _ => exact .code _
  | element _ _ _ | label _ _ | immediate _ _ => exact nowhere ⟨rfl, rfl⟩ rfl

theorem spares_assign (target : site.Reads guard dest)
    (writes : site.Writes guard dest) (reads : site.Reads guard value) :
    (site.assign dest value).Spares guard (n + 2) n fun _ => True := by
  unfold Site.assign
  split
  · exact (reads.loadInto _).mono (Nat.le_succ _) (Nat.le_refl n)
  · exact .bind (reads.load) fun register _ => writes.store target register

theorem spares_arguments (reads : ∀ entry ∈ pending, site.Reads guard entry.2) :
    (site.stackArguments pending).Spares guard 0 0 (fun _ => True) ∧
      (site.registerArguments pending).Spares guard 0 0 fun _ => True := by
  induction pending with
  | nil => exact ⟨.done trivial, .done trivial⟩
  | cons entry rest ih =>
    obtain ⟨here, others⟩ := forall_mem_cons.mp reads
    refine ⟨.bind ?_ fun _ (_ : True) => (ih others).1, .bind ?_ fun _ (_ : True) => (ih others).2⟩
    · unfold stackArgument
      split
      · exact .done trivial
      · exact .bind .refill fun _ _ => .bind (here.load) fun _ _ => .ends _ (Nat.zero_le 5)
    · unfold registerArgument
      split
      · exact .done trivial
      · exact .bind .refill fun _ _ => (here.loadInto _).mono (Nat.le_refl 7) (Nat.zero_le 6)

namespace Serves

variable {instr : Ir.Instr} (serves : site.Serves guard instr)
include serves

theorem first (takes : 0 < instr.opcode.takes) (malformed : guard.parts) :
    instr.src1.isSome = true :=
  (serves.parts malformed).first takes

theorem reads1 (read : instr.src1 = some value) : site.Reads guard value :=
  serves.reads value (mem_append_right _ (Ir.Instr.mem_sources_of_src1 read))

theorem reads2 (read : instr.src2 = some value) : site.Reads guard value :=
  serves.reads value (mem_append_right _ (Ir.Instr.mem_sources_of_src2 read))

variable {dest : Ir.Operand}

theorem target (written : instr.dest = some dest) : site.Reads guard dest :=
  serves.reads dest (mem_append_left _ (mem_toList.mpr written))

theorem store (written : instr.dest = some dest)
    (whole : instr.written? = instr.dest) (source : Reg) :
    (site.store source dest).Spares guard n n fun _ => True :=
  (serves.writes dest (whole.trans written)).store (serves.target written) source

theorem assign (gives : instr.opcode.computes = true ∨ instr.opcode = .store)
    (takes : 0 < instr.opcode.takes) :
    (do
      let dest ← Emit.required instr.dest
      let value ← Emit.required instr.src1
      site.assign dest value).Spares guard (n + 2) n fun _ => True := by
  refine .bind (.required fun malformed => (serves.parts malformed).dest gives)
    fun dest written => ?_
  refine .bind (.required (serves.first takes)) fun value read => ?_
  have whole : instr.written? = instr.dest := by
    rcases gives with computes | store
    · exact Ir.Instr.written?_of_computes computes
    · exact Ir.Instr.written?_of_store store
  exact spares_assign (serves.target written)
    (serves.writes dest (whole.trans written)) (serves.reads1 read)

theorem unary (computes : instr.opcode.computes = true) (takes : 0 < instr.opcode.takes) :
    (site.unary instr).Spares guard (n + 3) n fun _ => True := by
  refine .bind (.required fun malformed => (serves.parts malformed).dest (.inl computes))
    fun dest written => ?_
  refine .bind (.required (serves.first takes)) fun value read => ?_
  refine .bind ((serves.reads1 read).load) fun source _ => ?_
  refine .bind (spares_target dest) fun result _ => .bind (.code _) fun _ _ => ?_
  exact serves.store written (Ir.Instr.written?_of_computes computes) result

theorem binary (computes : instr.opcode.computes = true) (takes : 1 < instr.opcode.takes) :
    (site.binary instr).Spares guard (n + 6) n fun _ => True := by
  refine .bind (.required fun malformed => (serves.parts malformed).dest (.inl computes))
    fun dest written => ?_
  refine .bind (.required (serves.first (Nat.lt_trans Nat.zero_lt_one takes))) fun left read => ?_
  refine .bind (.required fun malformed => (serves.parts malformed).second takes)
    fun right read' => ?_
  refine .bind ((serves.reads1 read).load) fun source _ => ?_
  refine .bind (spares_target dest) fun result _ => ?_
  have second : (site.load right).Spares guard (n + 3) (n + 1) fun _ => True :=
    (serves.reads2 read').load
  have store : (site.store result dest).Spares guard n n fun _ => True :=
    serves.store written (Ir.Instr.written?_of_computes computes) result
  have code (instrs : List Instr) : (Emit.code instrs).Spares guard (n + 1) n fun _ => True :=
    .ends instrs (Nat.le_succ n)
  split
  · exact .bind second fun _ _ => .bind (code _) fun _ _ => store
  · refine .bind ?_ fun _ (_ : True) => store
    unfold intBinary
    split
    · exact .ends _ (Nat.le_add_right n 3)
    · refine .bind second fun _ _ => ?_
      unfold intCode
      split
      · exact code _
      · exact code _
      · exact code _
      · exact code _
      · exact .bind .scratch fun _ _ => .code _
      · split
        · exact code _
        · exact code _

theorem call (opcode : instr.opcode = .call) (reads : ∀ entry ∈ pending, site.Reads guard entry.2) :
    (site.call pending instr).Spares guard 7 0 fun _ => True := by
  have ordered : ∀ entry ∈ inOrder pending, site.Reads guard entry.2 := fun entry member =>
    reads entry ((mergeSort_perm ..).mem_iff.mp member)
  obtain ⟨stack, registers⟩ := spares_arguments ordered
  refine .bind (.required fun malformed => (serves.parts malformed).callee opcode) fun _ _ => ?_
  refine .bind (.code _) fun _ _ => .bind (stack.mono (Nat.zero_le 7) (Nat.le_refl 0)) fun _ _ => ?_
  refine .bind registers fun _ _ => .bind (.code _) fun _ _ => .bind (.code _) fun _ _ => ?_
  unfold takeResult
  split
  · exact .done trivial
  · next dest written =>
      refine .bind .refill fun _ _ => .bind (spares_target dest) fun register _ => ?_
      refine .bind (.code _) fun _ _ => ?_
      have stored : (site.store register dest).Spares guard 0 0 fun _ => True :=
        serves.store written (Ir.Instr.written?_of_call opcode) register
      exact stored.mono (Nat.zero_le 6) (Nat.le_refl 0)

theorem select
    (reads : instr.opcode = .call → ∀ entry ∈ pending, site.Reads guard entry.2) :
    (site.select pending instr).Spares guard 7 0 fun _ => True := by
  have ends {n : Nat} {step : Emit Unit} (spares : step.Spares guard 7 n fun _ => True) :
      step.Spares guard 7 0 fun _ => True := spares.mono (Nat.le_refl 7) (Nat.zero_le n)
  have last {n : Nat} (instrs : List Instr) : (Emit.code instrs).Spares guard n 0 fun _ => True :=
    .ends instrs (Nat.zero_le n)
  unfold Site.select
  cases opcode : instr.opcode with
  | enter | allocArray | nop => exact .gives trivial (Nat.zero_le 7)
  | loadImm | load | move | loadAddr | arrayLoad =>
    exact ends (serves.assign (.inl (by rw [opcode]; rfl)) (by rw [opcode]; decide))
  | store => exact ends (serves.assign (.inr opcode) (by rw [opcode]; decide))
  | arrayStore =>
    have element (malformed : guard.parts) := (serves.parts malformed).element opcode
    refine .bind (.required fun malformed => ?_) fun dest written => ?_
    · obtain ⟨_, _, _, same⟩ := element malformed
      rw [same]
      rfl
    refine .bind (.required (serves.first (by rw [opcode]; decide))) fun value read => ?_
    refine .bind ((serves.reads1 read).load) fun _ _ => ?_
    refine .bind ((serves.target written).elementOf fun malformed => ?_) fun _ _ => last _
    obtain ⟨_, _, _, same⟩ := element malformed
    cases written.symm.trans same
    rfl
  | add | sub | mul | div | mod | and | or | eq | ne | lt | le | gt | ge =>
    exact ends (serves.binary (by rw [opcode]; rfl) (by rw [opcode]; decide))
  | neg | not | intToFloat | floatToInt =>
    exact ends (serves.unary (by rw [opcode]; rfl) (by rw [opcode]; decide))
  | label | jump =>
    refine .bind (.required fun malformed => ?_) fun _ _ => last _
    exact (serves.parts malformed).named (by rw [opcode]; rfl)
  | jumpIfTrue | jumpIfFalse =>
    refine .bind (.required fun malformed => ?_) fun name _ => ?_
    · exact (serves.parts malformed).named (by rw [opcode]; rfl)
    refine .bind (.required (serves.first (by rw [opcode]; decide))) fun condition read => ?_
    exact .bind ((serves.reads1 read).load) fun _ _ => last _
  | arg =>
    refine .bind (.required fun malformed => ?_) fun _ _ => .gives trivial (Nat.zero_le 7)
    have parts := serves.parts malformed
    obtain ⟨value, read⟩ := isSome_iff_exists.mp (parts.first (by rw [opcode]; decide))
    obtain ⟨position, given⟩ := isSome_iff_exists.mp (parts.position opcode)
    simp [argument?, read, given]
  | call => exact serves.call opcode (reads opcode)
  | ret =>
    have given : (site.giveResult instr.src1).Spares guard 7 6 fun _ => True := by
      unfold giveResult
      split
      · exact .gives trivial (Nat.le_succ 6)
      · next value read => exact (serves.reads1 read).loadInto _
    exact .bind given fun _ _ => last _
  | exit | push | pop => exact last _
  | print | println =>
    refine .bind (.required (serves.first (by rw [opcode]; decide))) fun value read => ?_
    exact .bind ((serves.reads1 read).loadInto _) fun _ _ => last _

end Serves

/-- Where every cause is ruled out, there is code. -/
theorem Serves.run {instr : Ir.Instr} (serves : site.Serves ⟨True, True, True⟩ instr)
    (simple : instr.opcode ≠ .call) (pending : Pending) :
    ∃ code, (site.select pending instr).run = .ok code := by
  have selects : (site.select pending instr).Spares _ 7 0 fun _ => True :=
    serves.select fun call => absurd call simple
  have spares := selects Reg.scratch (Nat.le_refl 7)
  rw [Emit.run]
  cases emits : site.select pending instr Reg.scratch with
  | ok emitted => exact ⟨emitted.code, rfl⟩
  | error cause =>
    rw [emits] at spares
    cases cause <;> exact absurd trivial spares

end

end Site

/-! ## Programs -/

/-- In its frame the function has what the emission of its instructions asks for. -/
def Function.Serves (globals : List Ir.Global) (guard : Guard) (function : Ir.Function) :
    Prop :=
  ∀ layout, Layout.ofFunction function = .ok layout →
    ∀ instr ∈ function.code, Site.Serves ⟨layout, globals⟩ guard instr

/-- The fault is none of an instruction, or has another cause than those. -/
def Fault.Excludes (guard : Guard) : Fault → Prop
  | .instr _ _ cause => ¬ guard.Bars cause
  | .frameTooLarge _ _ => True

theorem error_of_map {α β : Type} {change : α → β} {result : Except Fault α} {fault : Fault}
    (failed : result.map change = .error fault) : result = .error fault := by
  cases result with
  | ok value => cases failed
  | error other => cases failed; rfl

section

variable {guard : Guard} {fault : Fault}

theorem selectCode_excludes {site : Site} {function : String} {code : List Ir.Instr}
    (serves : ∀ instr ∈ code, site.Serves guard instr)
    (reads : ∀ entry ∈ pending, site.Reads guard entry.2)
    (failed : (selectCode site function pending code).result = .error fault) :
    fault.Excludes guard := by
  induction code generalizing pending with
  | nil => cases failed
  | cons instr rest ih =>
    obtain ⟨here, others⟩ := forall_mem_cons.mp serves
    rw [selectCode] at failed
    split at failed
    · next cause ran =>
        cases failed
        have spares := here.select (fun _ => reads) Reg.scratch (Nat.le_refl 7)
        rw [Emit.run] at ran
        cases emits : site.select pending instr Reg.scratch with
        | ok emitted => rw [emits] at ran; cases ran
        | error cause' =>
          rw [emits] at ran spares
          cases ran
          exact spares
    · -- The arguments that wait are sources of instructions in front.
      refine ih others (fun entry member => ?_) (error_of_map failed)
      unfold pendingAfter at member
      split at member
      · rcases mem_append.mp member with before | new
        · exact reads entry before
        · obtain ⟨position, _, value, read, rfl⟩ := by
            simpa [argument?, bind_eq_some_iff] using new
          exact here.reads1 read
      · cases member
      · exact reads entry member

theorem ofIr_excludes (serves : Function.Serves globals guard function)
    (failed : (Function.ofIr globals function).result = .error fault) : fault.Excludes guard := by
  unfold Function.ofIr at failed
  split at failed
  · cases failed
    trivial
  · next layout laid =>
      exact selectCode_excludes (serves layout laid) (forall_mem_nil _)
        (error_of_map failed)

theorem ofIrs_excludes {functions : List Ir.Function}
    (serves : ∀ function ∈ functions, Function.Serves globals guard function)
    (failed : (Function.ofIrs globals functions).result = .error fault) : fault.Excludes guard := by
  induction functions with
  | nil => cases failed
  | cons function rest ih =>
    obtain ⟨here, others⟩ := forall_mem_cons.mp serves
    rw [Function.ofIrs] at failed
    split at failed
    · next head =>
        cases failed
        exact ofIr_excludes here head
    · exact ih others (error_of_map failed)

theorem Program.not_bars {program : Ir.Program}
    (serves : ∀ function ∈ program.functions, Function.Serves program.globals guard function)
    {name text : String}
    (failed : (Program.ofIr program).result = .error (.instr name text cause)) :
    ¬ guard.Bars cause :=
  ofIrs_excludes serves (error_of_map failed)

end

theorem Function.serves_of_flat
    (flat : ∀ instr ∈ function.code, ∀ operand ∈ instr.operands, operand.isFlat = true)
    (globals : List Ir.Global) : Function.Serves globals ⟨False, False, False⟩ function :=
  fun _ _ instr member =>
    ⟨fun operand inside => ⟨flat instr member operand inside, False.elim, False.elim⟩,
      fun _ _ => ⟨False.elim, False.elim⟩, False.elim⟩

end ArmBackend.Machine
