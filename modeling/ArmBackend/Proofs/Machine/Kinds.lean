import ArmBackend.Machine.Selection
import ArmBackend.Proofs.Ir.Semantics
import ArmBackend.Proofs.Machine.Constants

/-!
# Kinds of emitted instructions

What can be said of every single instruction is said once for all code that brings values
from place to place and computes with them.  A kind of instructions has all of this code if it
has the few forms that the code is made of.
-/

namespace ArmBackend.Machine

open List Option

open ArmBackend.Frame

namespace Instr

/-- The registers that an instruction writes. -/
def written : Instr → List Reg
  | mov dest _ | movConst dest _ | movz dest _ _ | movn dest _ _ | movk dest _ _ | fmovFrom dest _
  | int _ dest _ _ | addImm dest _ _ | subImm dest _ _ | neg dest _ | fcvtzs dest _ | cset dest _
  | ldur dest _ _ | ldr dest _ _ | ldrAt dest _ _ _ | adrp dest _ | addLow dest _ _ => [dest]
  | stpPre _ _ base _ => [base]
  | ldpPost first second base _ => [first, second, base]
  | _ => []

/-- Works with registers and symbols only, and does not end straight-line code. -/
def isBare : Instr → Bool
  | mov _ _ | fmovTo _ _ | fmovFrom _ _ | int _ _ _ _ | neg _ _ | float _ _ _ _ | fneg _ _
  | frintz _ _ | fmsub _ _ _ _ | scvtf _ _ | fcvtzs _ _ | fcmp _ _ | cmp _ _ | cset _ _
  | ldrAt _ _ _ _ | strAt _ _ _ _ | adrp _ _ | addLow _ _ _ => true
  | _ => false

end Instr

/-- An operation on a register and a constant in one instruction. -/
inductive ShortForm (imm : ArithImm) (opcode : Ir.Opcode) : Instr → Prop
  | add (adds : opcode = .add) (dest left : Reg) : ShortForm imm opcode (.addImm dest left imm)
  | sub (subtracts : opcode = .sub) (dest left : Reg) :
      ShortForm imm opcode (.subImm dest left imm)
  | compare (compares : opcode.isComparison = true) (left : Reg) :
      ShortForm imm opcode (.cmpImm left imm)

/-- The kind has the forms of all code that moves values, as long as the registers it writes are
good ones. -/
structure Site.Moves (site : Site) (good : Reg → Prop) (kind : Instr → Prop) : Prop where
  spare : ∀ reg ∈ Reg.scratch ++ [.address, .offset] ++ Reg.arguments, good reg
  home : ∀ {place register}, site.layout.homes.get? place = some (.reg register) → good register
  bare : ∀ {instr}, instr.isBare = true → (∀ reg ∈ instr.written, good reg) → kind instr
  const : ∀ {dest instr}, good dest → SetsConst dest instr → kind instr
  ldur : ∀ {dest offset}, good dest → fitsUnscaled offset = true → kind (.ldur dest .fp offset)
  stur : ∀ {source offset}, fitsUnscaled offset = true → kind (.stur source .fp offset)
  ldr : ∀ {dest base index}, good dest → index ≤ 4095 → kind (.ldr dest base (8 * index))
  str : ∀ {source base index}, index ≤ 4095 → kind (.str source base (8 * index))
  array : ∀ {place base length dest imm}, site.layout.homes.get? place = some (.array base length) →
    good dest → ArithImm.ofInt? base.natAbs = some imm →
      kind (if base < 0 then .subImm dest .fp imm else .addImm dest .fp imm)

/-- The kind also has the short forms of an operation. -/
structure Site.Computes (site : Site) (source : Ir.Instr) (good : Reg → Prop)
    (kind : Instr → Prop) : Prop extends site.Moves good kind where
  literal : ∀ {operand imm instr}, source.src2 = some operand → arithImm? operand = some imm →
    ShortForm imm source.opcode instr → (∀ reg ∈ instr.written, good reg) → kind instr
  truth : ∀ {left}, source.opcode = .not → kind (.cmpImm left ⟨0, false⟩)

/-- Where the element is at an offset from a base, a load or store has room for the offset. -/
def Element.IsNear : Element → Prop
  | .based _ offset => ∃ index ≤ 4095, offset = 8 * index
  | _ => True

namespace Emit

/-- The parts of two steps in a row. -/
theorem bind_ok {α β : Type} {first : Emit α} {next : α → Emit β} {free : List Reg}
    {emitted : Emitted β} (done : (first >>= next) free = .ok emitted) :
    ∃ before after, first free = .ok before ∧ next before.value before.free = .ok after ∧
      emitted = ⟨after.value, before.code ++ after.code, after.free⟩ := by
  have unfolded : andThen first next free = .ok emitted := done
  unfold andThen at unfolded
  split at unfolded
  · cases unfolded
  · next before one =>
      split at unfolded
      · cases unfolded
      · next after two =>
          cases unfolded
          exact ⟨before, after, one, two, rfl⟩

/-- From good scratch registers, the step emits instructions of the kind and leaves good scratch
registers.  Its result is a proper one. -/
def Emits {α : Type} (step : Emit α) (good : Reg → Prop) (kind : Instr → Prop)
    (proper : α → Prop) : Prop :=
  ∀ free emitted, (∀ reg ∈ free, good reg) → step free = .ok emitted →
    proper emitted.value ∧ (∀ instr ∈ emitted.code, kind instr) ∧ ∀ reg ∈ emitted.free, good reg

namespace Emits

variable {α β : Type} {good : Reg → Prop} {kind : Instr → Prop} {proper : α → Prop}

theorem done {value : α} (holds : proper value) : (Emit.done value).Emits good kind proper := by
  rintro free _ fine ⟨⟩
  exact ⟨holds, nofun, fine⟩

theorem pure {value : α} (holds : proper value) :
    (Pure.pure value : Emit α).Emits good kind proper :=
  done holds

theorem code {instrs : List Instr} (all : ∀ instr ∈ instrs, kind instr) :
    (Emit.code instrs).Emits good kind fun _ => True := by
  rintro free _ fine ⟨⟩
  exact ⟨trivial, all, fine⟩

theorem fail {cause : Cause} : (Emit.fail cause : Emit α).Emits good kind proper := by
  rintro free _ fine ⟨⟩

theorem scratch : Emit.scratch.Emits good kind good := by
  intro free emitted fine taken
  cases free with
  | nil => cases taken
  | cons reg rest =>
    cases taken
    exact ⟨fine reg (.head _), nofun, fun other member => fine other (.tail _ member)⟩

theorem refill (fine : ∀ reg ∈ Reg.scratch, good reg) :
    Emit.refill.Emits good kind fun _ => True := by
  rintro free _ _ ⟨⟩
  exact ⟨trivial, nofun, fine⟩

theorem bind {proper' : β → Prop} {first : Emit α} {next : α → Emit β}
    (one : first.Emits good kind proper)
    (two : ∀ value, proper value → (next value).Emits good kind proper') :
    (first >>= next).Emits good kind proper' := by
  intro free emitted fine done
  obtain ⟨before, after, head, tail, rfl⟩ := bind_ok done
  obtain ⟨holds, all, fine'⟩ := one free before fine head
  obtain ⟨holds', all', fine''⟩ := two _ holds _ after fine' tail
  exact ⟨holds', forall_mem_append.mpr ⟨all, all'⟩, fine''⟩

theorem required {part : Option α} :
    (Emit.required part).Emits good kind fun value => part = some value := by
  cases part with
  | none => exact fail
  | some value => exact done rfl

theorem of_run {step : Emit Unit} {proper : Unit → Prop} (emits : step.Emits good kind proper)
    (fine : ∀ reg ∈ Reg.scratch, good reg) {code : List Instr} (run : step.run = .ok code) :
    ∀ instr ∈ code, kind instr := by
  unfold Emit.run at run
  cases done : step Reg.scratch with
  | error cause =>
    rw [done] at run
    cases run
  | ok emitted =>
    rw [done] at run
    cases run
    exact (emits _ _ fine done).2.1

end Emits

end Emit

namespace Site.Moves

variable {site : Site} {good : Reg → Prop} {kind : Instr → Prop}

variable (operand : Ir.Operand)

theorem emits_home : (site.home operand).Emits good kind fun home =>
    ∃ place, site.layout.homes.get? place = some home := by
  unfold Site.home
  split
  · next home found =>
      obtain ⟨place, _, there⟩ := bind_eq_some_iff.mp found
      exact .done ⟨place, there⟩
  · exact .fail

theorem emits_indexBy (index : Ir.Operand) {loadInto : Reg → Emit Unit}
    (loads : ∀ register, good register → (loadInto register).Emits good kind fun _ => True) :
    (site.indexBy index loadInto).Emits good kind fun _ => True := by
  unfold Site.indexBy
  split
  · exact .pure trivial
  · exact .pure trivial
  · exact .bind .scratch fun register fine => .bind (loads register fine) fun _ _ => .pure trivial

variable (moves : site.Moves good kind)

include moves

theorem scratch : ∀ reg ∈ Reg.scratch, good reg :=
  fun reg member => moves.spare reg
    (mem_append_left _ (mem_append_left _ member))

theorem address : good .address :=
  moves.spare _ (by decide)

theorem offset : good .offset :=
  moves.spare _ (by decide)

theorem bares {code : List Instr} (bare : code.all Instr.isBare = true)
    (writes : ∀ reg ∈ code.flatMap Instr.written, good reg) : ∀ instr ∈ code, kind instr :=
  fun instr member => moves.bare (all_eq_true.mp bare instr member)
    fun reg inside => writes reg (mem_flatMap.mpr ⟨instr, member, inside⟩)

theorem register? {operand : Ir.Operand} {register : Reg}
    (known : site.register? operand = some register) : good register := by
  have simple (place : Ir.Location)
      (known : (site.layout.homes.get? place).bind Home.reg? = some register) : good register := by
    obtain ⟨home, found, same⟩ := bind_eq_some_iff.mp known
    cases home with
    | reg other =>
      cases same
      exact moves.home found
    | slot offset | array base length => cases same
  cases operand with
  | temp name type | var name type | param name type => exact simple _ known
  | global name type | label name type | immediate value type | element array index type =>
    cases known

/-! ## Code that moves values -/

section

variable {dest : Reg} (fine : good dest)

include fine

theorem loadConst (word : Word) : ∀ instr ∈ loadConst dest word, kind instr :=
  fun instr member => moves.const fine (setsConst_loadConst dest word instr member)

theorem loadSlot (offset : Int) : ∀ instr ∈ loadSlot dest offset, kind instr := by
  unfold Frame.loadSlot
  split
  · next fits => exact forall_mem_singleton.mpr (moves.ldur fine fits)
  · exact forall_mem_append.mpr ⟨moves.loadConst moves.address _,
      moves.bares rfl (by simpa [Instr.written] using fine)⟩

variable {place : Ir.Location}

theorem slotAddress {base : Int} {length : Nat}
    (found : site.layout.homes.get? place = some (.array base length)) :
    ∀ instr ∈ slotAddress dest base, kind instr := by
  unfold Frame.slotAddress
  cases short : ArithImm.ofInt? base.natAbs with
  | some imm =>
    have form := moves.array found fine short
    rw [slotAddressBy]
    split
    · next below => exact forall_mem_singleton.mpr (by rwa [if_pos below] at form)
    · next above => exact forall_mem_singleton.mpr (by rwa [if_neg above] at form)
  | none => exact forall_mem_append.mpr ⟨moves.loadConst moves.offset _,
      moves.bares rfl (by simpa [Instr.written] using fine)⟩

theorem symbolAddress (symbol : String) : ∀ instr ∈ symbolAddress dest symbol, kind instr :=
  moves.bares rfl (by simpa [Machine.symbolAddress, Instr.written] using fine)

theorem loadElement {element : Element} (near : element.IsNear) :
    ∀ instr ∈ element.load dest, kind instr := by
  cases element with
  | slot offset => exact moves.loadSlot fine offset
  | based base offset =>
    obtain ⟨index, small, rfl⟩ := near
    exact forall_mem_singleton.mpr (moves.ldr fine small)
  | indexed base index => exact moves.bares rfl (by simpa [Element.load, Instr.written] using fine)

theorem loadHome {home : Home} (found : site.layout.homes.get? place = some home) :
    ∀ instr ∈ Site.loadHome dest home, kind instr := by
  cases home with
  | reg register =>
    rw [Site.loadHome]
    split
    · exact nofun
    · exact moves.bares rfl (by simpa [Instr.written] using fine)
  | slot offset => exact moves.loadSlot fine offset
  | array base length => exact moves.slotAddress fine found

end

theorem storeSlot (source : Reg) (offset : Int) : ∀ instr ∈ storeSlot source offset, kind instr := by
  unfold Frame.storeSlot
  split
  · next fits => exact forall_mem_singleton.mpr (moves.stur fits)
  · exact forall_mem_append.mpr ⟨moves.loadConst moves.address _, moves.bares rfl nofun⟩

theorem globalAddress (name : String) : ∀ instr ∈ globalAddress name, kind instr :=
  moves.symbolAddress moves.address _

theorem storeElement (source : Reg) {element : Element} (near : element.IsNear) :
    ∀ instr ∈ element.store source, kind instr := by
  cases element with
  | slot offset => exact moves.storeSlot source offset
  | based base offset =>
    obtain ⟨index, small, rfl⟩ := near
    exact forall_mem_singleton.mpr (moves.str small)
  | indexed base index => exact moves.bares rfl nofun

theorem emits_frameElement {place : Ir.Location} {base : Int} {length : Nat}
    (found : site.layout.homes.get? place = some (.array base length)) (index : Index) :
    (frameElement base index).Emits good kind Element.IsNear := by
  have address : (Emit.code (Frame.slotAddress .address base)).Emits good kind fun _ => True :=
    .code (moves.slotAddress moves.address found)
  cases index with
  | reg register => exact .bind address fun _ _ => .pure trivial
  | const value =>
    unfold frameElement
    dsimp only
    split
    · exact .pure trivial
    · exact .bind .scratch fun register fine => .bind (.code (moves.loadConst fine _)) fun _ _ =>
        .bind address fun _ _ => .pure trivial

theorem emits_globalElement (array : String) (index : Index) :
    (globalElement array index).Emits good kind Element.IsNear := by
  refine .bind (.code (moves.globalAddress array)) fun _ _ => ?_
  cases index with
  | reg register => exact .pure trivial
  | const value =>
    dsimp only
    split
    · next small =>
        have same : (value.toNat : Int) = value.toInt := by
          have := BitVec.toInt_eq_toNat_cond value
          omega
        exact .pure ⟨value.toNat, by omega, rfl⟩
    · exact .bind (.code (moves.loadConst moves.offset _)) fun _ _ => .pure trivial

theorem emits_element (array : String) (index : Index) :
    (site.element array index).Emits good kind Element.IsNear := by
  unfold Site.element
  split
  · next base length found => exact moves.emits_frameElement found index
  split
  · exact moves.emits_globalElement array index
  · exact .fail

theorem emits_loadInto {dest : Reg} (fine : good dest) (operand : Ir.Operand) :
    (site.loadInto dest operand).Emits good kind fun _ => True := by
  induction operand generalizing dest with
  | immediate value type => exact .code (moves.loadConst fine _)
  | label name type => exact .code (moves.symbolAddress fine _)
  | global name type =>
    exact .code (forall_mem_append.mpr ⟨moves.globalAddress name,
      forall_mem_singleton.mpr (moves.ldr fine (Nat.zero_le 4095))⟩)
  | element array index type ih =>
    exact .bind (emits_indexBy index fun register => ih) fun _ _ =>
      .bind (moves.emits_element array _) fun element near => .code (moves.loadElement fine near)
  | temp name type | var name type | param name type =>
    exact .bind (emits_home _) fun home ⟨_, found⟩ => .code (moves.loadHome fine found)

theorem emits_load : (site.load operand).Emits good kind fun _ => True := by
  unfold Site.load
  split
  · exact .pure trivial
  · exact .bind .scratch fun register fine => .bind (moves.emits_loadInto fine operand)
      fun _ _ => .pure trivial

theorem emits_elementOf : (site.elementOf operand).Emits good kind Element.IsNear := by
  cases operand with
  | element array index type =>
    exact .bind (emits_indexBy index fun register fine => moves.emits_loadInto fine index)
      fun _ _ => moves.emits_element array _
  | _ => exact .fail

theorem emits_target (dest : Ir.Operand) : (site.target dest).Emits good kind good := by
  unfold Site.target
  split
  · next register known => exact .pure (moves.register? known)
  · exact .scratch

theorem emits_store (source : Reg) (dest : Ir.Operand) :
    (site.store source dest).Emits good kind fun _ => True := by
  have stored {place : Ir.Location} (home : Home)
      (found : site.layout.homes.get? place = some home) :
      (storeHome source home).Emits good kind fun _ => True := by
    cases home with
    | reg register =>
      refine .code ?_
      split
      · exact nofun
      · exact moves.bares rfl (by simpa [Instr.written] using moves.home found)
    | slot offset => exact .code (moves.storeSlot source offset)
    | array base length => exact .fail
  cases dest with
  | global name type =>
    exact .code (forall_mem_append.mpr ⟨moves.globalAddress name,
      forall_mem_singleton.mpr (moves.str (Nat.zero_le 4095))⟩)
  | _ => exact .bind (emits_home _) fun home ⟨_, found⟩ => stored home found

theorem emits_assign (dest value : Ir.Operand) :
    (site.assign dest value).Emits good kind fun _ => True := by
  unfold Site.assign
  split
  · next register known => exact moves.emits_loadInto (moves.register? known) value
  · exact .bind (moves.emits_load value) fun register _ => moves.emits_store register dest

/-! ## Code around calls -/

theorem emits_stackArguments {pending : Pending}
    (stores : ∀ entry ∈ pending, ∀ offset, Convention.outgoing? entry.1 = some offset →
      ∀ source, kind (.str source .sp offset)) :
    (site.stackArguments pending).Emits good kind fun _ => True := by
  induction pending with
  | nil => exact .done trivial
  | cons entry rest ih =>
    have first : (site.stackArgument entry.1 entry.2).Emits good kind fun _ => True := by
      unfold Site.stackArgument
      split
      · exact .done trivial
      · next offset goes =>
          exact .bind (.refill moves.scratch) fun _ _ => .bind (moves.emits_load _)
            fun register _ => .code (forall_mem_singleton.mpr
              (stores entry (.head _) offset goes register))
    exact .bind first fun _ _ => ih fun other member => stores other (.tail _ member)

theorem emits_registerArguments (pending : Pending) :
    (site.registerArguments pending).Emits good kind fun _ => True := by
  induction pending with
  | nil => exact .done trivial
  | cons entry rest ih =>
    have first : (site.registerArgument entry.1 entry.2).Emits good kind fun _ => True := by
      unfold Site.registerArgument
      split
      · exact .done trivial
      · next register goes =>
          exact .bind (.refill moves.scratch) fun _ _ => moves.emits_loadInto
            (moves.spare _ (mem_append_right _ (mem_of_getElem? goes))) _
    exact .bind first fun _ _ => ih

theorem emits_takeResult (dest : Option Ir.Operand) :
    (site.takeResult dest).Emits good kind fun _ => True := by
  cases dest with
  | none => exact .done trivial
  | some dest =>
    refine .bind (.refill moves.scratch) fun _ _ => .bind (moves.emits_target dest)
      fun register fine => .bind (.code ?_) fun _ _ => moves.emits_store register dest
    split
    · exact nofun
    · exact moves.bares rfl (by simpa [Instr.written] using fine)

theorem emits_giveResult (value : Option Ir.Operand) :
    (site.giveResult value).Emits good kind fun _ => True := by
  cases value with
  | none => exact .done trivial
  | some value => exact moves.emits_loadInto (moves.spare _ (by decide)) value

end Site.Moves

/-! ## Code that moves the stack pointer -/

namespace Site.Moves

variable {site : Site} {kind : Instr → Prop} (moves : site.Moves (fun _ => True) kind)

include moves

variable {bytes : Nat}

theorem reserve (short : ∀ imm, ArithImm.ofInt? bytes = some imm → kind (.subImm .sp .sp imm)) :
    ∀ instr ∈ reserve bytes, kind instr := by
  unfold Frame.reserve
  split
  · exact nofun
  split
  · next imm found => exact forall_mem_singleton.mpr (short imm found)
  · exact forall_mem_append.mpr ⟨moves.loadConst trivial _, moves.bares rfl fun _ _ => trivial⟩

theorem release (short : ∀ imm, ArithImm.ofInt? bytes = some imm → kind (.addImm .sp .sp imm)) :
    ∀ instr ∈ release bytes, kind instr := by
  unfold Frame.release
  split
  · exact nofun
  split
  · next imm found => exact forall_mem_singleton.mpr (short imm found)
  · exact forall_mem_append.mpr ⟨moves.loadConst trivial _, moves.bares rfl fun _ _ => trivial⟩

theorem prologue {layout : Layout} (pair : kind (.stpPre .fp .lr .sp (-Layout.recordSize)))
    (short : ∀ imm, ArithImm.ofInt? layout.size = some imm → kind (.subImm .sp .sp imm))
    (saves : ∀ entry ∈ layout.saved.zipIdx, kind (.str entry.1 .sp (Layout.saveOffset entry.2))) :
    ∀ instr ∈ layout.prologue, kind instr := by
  have settle (argument : Reg) (home : Home) : ∀ instr ∈ Layout.settle argument home, kind instr := by
    cases home with
    | reg register => exact moves.bares rfl fun _ _ => trivial
    | slot offset => exact moves.storeSlot argument offset
    | array base length => exact nofun
  unfold Layout.prologue
  simp only [forall_mem_append, List.forall_mem_map]
  refine ⟨⟨⟨forall_mem_cons.mpr ⟨pair, moves.bares rfl fun _ _ => trivial⟩,
    moves.reserve short⟩, saves⟩, ?_⟩
  intro instr member
  obtain ⟨entry, _, inside⟩ := mem_flatMap.mp member
  exact settle entry.1 entry.2 instr inside

end Site.Moves

/-! ## Code that computes -/

namespace Site.Computes

variable {site : Site} {source : Ir.Instr} {good : Reg → Prop} {kind : Instr → Prop}
  (computes : site.Computes source good kind)

include computes

theorem emits_unary : (site.unary source).Emits good kind fun _ => True := by
  refine .bind .required fun dest _ => .bind .required fun operand _ =>
    .bind (computes.emits_load operand) fun left _ => .bind (computes.emits_target dest)
      fun result fine => .bind (.code ?_) fun _ _ => computes.emits_store result dest
  unfold unaryCode
  split
  · split <;> exact computes.bares rfl (by simpa [Instr.written] using fine)
  · next opcode =>
      exact forall_mem_cons.mpr ⟨computes.truth opcode,
        computes.bares rfl (by simpa [Instr.written] using fine)⟩
  · exact computes.bares rfl (by simpa [Instr.written] using fine)
  · exact computes.bares rfl (by simpa [Instr.written] using fine)

variable {dest : Reg} {operand : Ir.Operand}

theorem floatCode (opcode : Ir.Opcode) (fine : good dest) (left right : Reg) :
    ∀ instr ∈ floatCode opcode dest left right, kind instr := by
  unfold Machine.floatCode
  refine forall_mem_append.mpr ⟨computes.bares rfl nofun, ?_⟩
  split
  all_goals try exact computes.bares rfl (by simpa [Instr.written] using fine)
  split <;> exact computes.bares rfl (by simpa [Instr.written, logical] using fine)

theorem emits_intCode (opcode : Ir.Opcode) (fine : good dest) (left right : Reg) :
    (intCode opcode dest left right).Emits good kind fun _ => True := by
  unfold intCode
  split
  case h_5 =>
    exact .bind .scratch fun quotient other =>
      .code (computes.bares rfl (by simpa [Instr.written, other] using fine))
  case h_6 =>
    split <;> exact .code (computes.bares rfl (by simpa [Instr.written, logical] using fine))
  all_goals exact .code (computes.bares rfl (by simpa [Instr.written] using fine))

theorem constCode? {imm : ArithImm} (second : source.src2 = some operand)
    (short : arithImm? operand = some imm) {left : Reg} (fine : good dest) {code : List Instr}
    (found : constCode? source.opcode dest left imm = some code) : ∀ instr ∈ code, kind instr := by
  have form {instr : Instr} (is : ShortForm imm source.opcode instr)
      (writes : ∀ reg ∈ instr.written, good reg) : kind instr :=
    computes.literal second short is writes
  unfold Machine.constCode? at found
  split at found
  · next opcode =>
      cases found
      exact forall_mem_singleton.mpr (form (.add opcode _ _)
        (by simpa [Instr.written] using fine))
  · next opcode =>
      cases found
      exact forall_mem_singleton.mpr (form (.sub opcode _ _)
        (by simpa [Instr.written] using fine))
  · split at found
    · next compares =>
        cases found
        exact forall_mem_cons.mpr ⟨form (.compare compares _) nofun,
          computes.bares rfl (by simpa [Instr.written] using fine)⟩
    · cases found

theorem emits_intBinary (second : source.src2 = some operand) (fine : good dest) (left : Reg) :
    (site.intBinary source.opcode dest left operand).Emits good kind fun _ => True := by
  unfold Site.intBinary
  split
  · next code known =>
      obtain ⟨imm, short, found⟩ := bind_eq_some_iff.mp known
      exact .code (computes.constCode? second short fine found)
  · exact .bind (computes.emits_load operand) fun right _ => computes.emits_intCode _ fine _ right

theorem emits_binary : (site.binary source).Emits good kind fun _ => True := by
  refine .bind .required fun dest _ => .bind .required fun first _ => .bind .required
    fun operand second => .bind (computes.emits_load first) fun left _ =>
      .bind (computes.emits_target dest) fun result fine => ?_
  split
  · exact .bind (computes.emits_load operand) fun right _ =>
      .bind (.code (computes.floatCode _ fine _ _)) fun _ _ => computes.emits_store result dest
  · exact .bind (computes.emits_intBinary second fine left) fun _ _ =>
      computes.emits_store result dest

theorem emits_select (pending : Pending) (gives : source.opcode.givesValue = true) :
    (site.select pending source).Emits good kind fun _ => True := by
  unfold Site.select
  cases opcode : source.opcode with
  | loadImm | load | move | store | loadAddr | arrayLoad =>
    exact .bind .required fun dest _ => .bind .required fun value _ =>
      computes.emits_assign dest value
  | arrayStore =>
    exact .bind .required fun dest _ => .bind .required fun value _ =>
      .bind (computes.emits_load value) fun register _ => .bind (computes.emits_elementOf dest)
        fun element near => .code (computes.storeElement register near)
  | add | sub | mul | div | mod | and | or | eq | ne | lt | le | gt | ge =>
    exact computes.emits_binary
  | neg | not | intToFloat | floatToInt =>
    exact computes.emits_unary
  | _ =>
    rw [opcode] at gives
    cases gives

theorem emits_selectStraight (bound : ∀ instr, instr.isBoundary = true → kind instr)
    (pending : Pending) (straight : source.opcode ∉ [.call, .ret, .exit]) :
    (site.select pending source).Emits good kind fun _ => True := by
  by_cases gives : source.opcode.givesValue = true
  · exact computes.emits_select pending gives
  have single {instr : Instr} (ends : instr.isBoundary = true) :
      (Emit.code [instr]).Emits good kind fun _ => True :=
    .code (forall_mem_singleton.mpr (bound instr ends))
  unfold Site.select
  cases opcode : source.opcode with
  | enter | allocArray | nop =>
    exact .done trivial
  | label | jump =>
    exact .bind .required fun name _ => single rfl
  | jumpIfTrue | jumpIfFalse =>
    exact .bind .required fun name _ => .bind .required fun condition _ =>
      .bind (computes.emits_load condition) fun register _ => single rfl
  | arg =>
    exact .bind .required fun _ _ => .done trivial
  | print | println =>
    exact .bind .required fun value _ =>
      .bind (computes.emits_loadInto (computes.spare _ (by decide)) value) fun _ _ => single rfl
  | push | pop =>
    exact single rfl
  | call | ret | exit => simp [opcode] at straight
  | _ => simp [opcode, Ir.Opcode.givesValue] at gives

end Site.Computes

end ArmBackend.Machine
