import ArmBackend.Frame.Access
import ArmBackend.Machine.Operands
import ArmBackend.Proofs.Machine.Constants

/-!
# Words that come and go

What the code does that brings constants, addresses and the words of a frame into
registers and back.  Each piece of it is described by what it brings and by the registers
and the memory to which its changes are confined.
-/

namespace ArmBackend.Machine

open List

open ArmBackend.Frame

namespace FloatReg

/-- The registers that values pass through on their way to a float operation. -/
def passing : List FloatReg :=
  [first, second, third]

end FloatReg

/-- All changes are in these registers and in these parts of memory, or in what floats pass through. -/
structure Confined (registers : List Reg) (spans : List Span) (before after : State) : Prop where
  get_eq : ∀ reg, reg ∉ registers → after.get reg = before.get reg
  floats_eq : ∀ reg, reg ∉ FloatReg.passing → after.floats reg = before.floats reg
  memory_eq : ∀ address, (∀ span ∈ spans, ¬ span.Has address) →
    after.memory address = before.memory address

namespace Confined

variable {registers registers' : List Reg} {spans spans' : List Span} {first second third : State}

theorem refl (registers : List Reg) (spans : List Span) (state : State) :
    Confined registers spans state state :=
  ⟨fun _ _ => rfl, fun _ _ => rfl, fun _ _ => rfl⟩

theorem mono (confined : Confined registers spans first second)
    (more : registers ⊆ registers') (wider : spans ⊆ spans') :
    Confined registers' spans' first second where
  get_eq reg outside := confined.get_eq reg fun inside => outside (more inside)
  floats_eq := confined.floats_eq
  memory_eq address outside :=
    confined.memory_eq address fun span inside => outside span (wider inside)

theorem widen (confined : Confined registers spans first second) (more : registers ⊆ registers') :
    Confined registers' spans first second :=
  confined.mono more (List.Subset.refl _)

theorem trans (one : Confined registers spans first second)
    (two : Confined registers spans second third) : Confined registers spans first third where
  get_eq reg outside := (two.get_eq reg outside).trans (one.get_eq reg outside)
  floats_eq reg outside := (two.floats_eq reg outside).trans (one.floats_eq reg outside)
  memory_eq address outside :=
    (two.memory_eq address outside).trans (one.memory_eq address outside)

theorem load_eq (confined : Confined registers spans first second) {address : Word}
    (apart : ∀ span ∈ spans, (Span.word address).Apart span) :
    second.memory.load address = first.memory.load address :=
  Memory.load_congr fun place inside => confined.memory_eq place fun span listed clash =>
    apart span listed place inside clash

theorem memory_eq_of_nil (confined : Confined registers [] first second) :
    second.memory = first.memory :=
  funext fun address => confined.memory_eq address nofun

theorem within {span : Span} (confined : Confined registers spans first second)
    (inside : ∀ part ∈ spans, part.Inside span) : Confined registers [span] first second where
  get_eq := confined.get_eq
  floats_eq := confined.floats_eq
  memory_eq address outside := confined.memory_eq address fun part member has =>
    outside span (mem_singleton_self _) (inside part member address has)

end Confined

section

variable (state : State) (reg : Reg) (value address : Word)

theorem confined_set : Confined [reg] [] state (state.set reg value) where
  get_eq other outside := State.get_set_ne state value (by simpa using outside)
  floats_eq _ _ := by rw [State.floats_set]
  memory_eq _ _ := by rw [State.memory_set]

theorem confined_store :
    Confined [] [.word address] state (state.store address value) where
  get_eq other _ := State.get_store state other value address
  floats_eq _ _ := by rw [State.floats_store]
  memory_eq _ outside := if_neg (outside _ (mem_singleton_self _))

theorem confined_setFlags (flags : Flags) : Confined [] [] state (state.setFlags flags) where
  get_eq other _ := State.get_setFlags state other flags
  floats_eq _ _ := by rw [State.floats_setFlags]
  memory_eq _ _ := by rw [State.memory_setFlags]

theorem confined_setFloat {float : FloatReg} (passes : float ∈ FloatReg.passing) :
    Confined [] [] state (state.setFloat float value) where
  get_eq other _ := State.get_setFloat state other value float
  floats_eq other outside :=
    State.floats_setFloat_ne state value fun same => outside (same ▸ passes)
  memory_eq _ _ := by rw [State.memory_setFloat]

end

/-! ## Words of the frame -/

/-- A word has come into a register; besides, only these registers may have changed. -/
structure Brings (dest : Reg) (value : Word) (others : List Reg) (before after : State) : Prop where
  get_eq : after.get dest = value
  confined : Confined (dest :: others) [] before after

/-- A word has come into memory; besides, only these registers may have changed. -/
structure Puts (address value : Word) (others : List Reg) (before after : State) : Prop where
  load_eq : after.memory.load address = value
  confined : Confined others [.word address] before after

section

variable {dest : Reg} {value address : Word} {others others' : List Reg} {first second third : State}

theorem Brings.mono (brings : Brings dest value others first second) (more : others ⊆ others') :
    Brings dest value others' first second :=
  ⟨brings.get_eq, brings.confined.widen (cons_subset_cons _ more)⟩

theorem Brings.after (brings : Brings dest value others second third)
    (confined : Confined others [] first second) : Brings dest value others first third :=
  ⟨brings.get_eq, (confined.widen (subset_cons_self ..)).trans
    brings.confined⟩

theorem Puts.after (puts : Puts address value others second third)
    (confined : Confined others [] first second) : Puts address value others first third :=
  ⟨puts.load_eq, (confined.mono (List.Subset.refl _) (nil_subset _)).trans puts.confined⟩

theorem brings_set (named : dest ≠ .zr) (value : Word) (state : State) (others : List Reg) :
    Brings dest value others state (state.set dest value) :=
  ⟨State.get_set_self state dest value named, (confined_set state dest value).widen (by simp)⟩

theorem puts_store (address value : Word) (state : State) (others : List Reg) :
    Puts address value others state (state.store address value) :=
  ⟨Memory.load_store .., (confined_store state value address).widen (nil_subset _)⟩

end

section

variable (platform : Platform) (state : State) {dest source : Reg}

theorem symbolAddress_brings (named : dest ≠ .zr) (symbol : String) :
    Brings dest (platform.symbol symbol) [] state
      (execAll platform (symbolAddress dest symbol) state) := by
  have both : execAll platform (symbolAddress dest symbol) state =
      state.set dest (platform.symbol symbol) := by
    simp only [symbolAddress, execAll_cons, execAll_nil, Instr.exec, State.get_set_self _ _ _ named,
      State.set_set, page_add_withinPage]
  rw [both]
  exact brings_set named _ state _

theorem execAll_loadConst_then (word : Word) (instr : Instr) :
    execAll platform (loadConst dest word ++ [instr]) state =
      instr.exec platform (state.set dest word) := by
  rw [execAll_append, execAll_loadConst, execAll_cons, execAll_nil]

theorem loadSlot_brings (named : dest ≠ .zr) (offset : Int) :
    Brings dest (state.memory.load (state.get .fp + BitVec.ofInt 64 offset)) [.address] state
      (execAll platform (loadSlot dest offset) state) := by
  unfold loadSlot
  split
  · exact brings_set named _ state _
  · rw [execAll_loadConst_then, Instr.exec, State.get_set_ne state _ (by decide),
      State.get_set_self _ _ _ (by decide), State.memory_set,
      if_neg Bool.false_ne_true, BitVec.shiftLeft_zero]
    exact (brings_set named _ _ _).after (confined_set state _ _)

theorem storeSlot_puts (spared : source ≠ .address) (offset : Int) :
    Puts (state.get .fp + BitVec.ofInt 64 offset) (state.get source) [.address] state
      (execAll platform (storeSlot source offset) state) := by
  unfold storeSlot
  split
  · exact puts_store _ _ state _
  · rw [execAll_loadConst_then, Instr.exec, State.get_set_ne state _ (by decide),
      State.get_set_self _ _ _ (by decide), State.get_set_ne state _ spared,
      if_neg Bool.false_ne_true, BitVec.shiftLeft_zero]
    exact (puts_store _ _ _ _).after (confined_set state _ _)

theorem ArithImm.value_of_ofInt? {number : Int} {imm : ArithImm}
    (short : ArithImm.ofInt? number = some imm) : (imm.value : Int) = number := by
  unfold ArithImm.ofInt? at short
  split at short
  · cases short
    simp only [ArithImm.value, Bool.false_eq_true, if_false]
    omega
  · split at short
    · cases short
      simp only [ArithImm.value, if_true]
      omega
    · cases short

theorem ofInt_eq_of_natAbs (offset : Int) :
    BitVec.ofInt 64 offset =
      if offset < 0 then -BitVec.ofNat 64 offset.natAbs else BitVec.ofNat 64 offset.natAbs := by
  split
  · next below =>
      rw [← BitVec.ofInt_natCast, ← BitVec.ofInt_neg]
      congr 1
      omega
  · next above =>
      rw [← BitVec.ofInt_natCast]
      congr 1
      omega

theorem slotAddress_brings (named : dest ≠ .zr) (offset : Int) :
    Brings dest (state.get .fp + BitVec.ofInt 64 offset) [.offset] state
      (execAll platform (slotAddress dest offset) state) := by
  unfold slotAddress
  rw [ofInt_eq_of_natAbs offset]
  generalize short : ArithImm.ofInt? (offset.natAbs : Int) = form
  cases form with
  | some imm =>
    have same : imm.value = offset.natAbs :=
      Int.ofNat.inj (ArithImm.value_of_ofInt? short)
    rw [slotAddressBy, ← same]
    split
    · rw [← BitVec.sub_eq_add_neg]
      exact brings_set named _ state _
    · exact brings_set named _ state _
  | none =>
    rw [slotAddressBy, execAll_loadConst_then, Instr.exec, State.get_set_ne state _ (by decide),
      State.get_set_self _ _ _ (by decide)]
    refine Brings.after ?_ (confined_set state .offset (BitVec.ofNat 64 offset.natAbs))
    split
    · rw [← BitVec.sub_eq_add_neg]
      exact brings_set named _ _ _
    · exact brings_set named _ _ _

/-- Room on the stack is taken and given back. -/
theorem shift_brings (bytes : Nat) :
    Brings .sp (state.get .sp - BitVec.ofNat 64 bytes) [.address] state
        (execAll platform (reserve bytes) state) ∧
      Brings .sp (state.get .sp + BitVec.ofNat 64 bytes) [.address] state
        (execAll platform (release bytes) state) := by
  unfold reserve release
  split
  · next none =>
      subst none
      exact ⟨⟨by simp, .refl ..⟩, by simp, .refl ..⟩
  split
  · next imm short =>
      obtain rfl : imm.value = bytes := Int.ofNat.inj (ArithImm.value_of_ofInt? short)
      exact ⟨brings_set (by decide) _ state _, brings_set (by decide) _ state _⟩
  · rw [execAll_loadConst_then, execAll_loadConst_then, Instr.exec, Instr.exec,
      State.get_set_ne state _ (by decide), State.get_set_self _ _ _ (by decide)]
    exact ⟨(brings_set (by decide) _ _ _).after (confined_set state _ _),
      (brings_set (by decide) _ _ _).after (confined_set state _ _)⟩

end

/-! ## Elements of arrays -/

namespace Element

/-- The address that the element has in a state. -/
def address (state : State) : Element → Word
  | slot offset => state.get .fp + BitVec.ofInt 64 offset
  | based base offset => state.get base + BitVec.ofNat 64 offset
  | indexed base index => state.get base + 8#64 * state.get index

theorem shiftLeft_three (word : Word) : word <<< 3 = 8#64 * word := by
  rw [BitVec.shiftLeft_eq_mul_twoPow, BitVec.mul_comm]
  rfl

variable (platform : Platform) (state : State)

theorem load_brings {dest : Reg} (named : dest ≠ .zr) (element : Element) :
    Brings dest (state.memory.load (element.address state)) [.address] state
      (execAll platform (element.load dest) state) := by
  cases element with
  | slot offset => exact loadSlot_brings platform state named offset
  | based base offset => exact brings_set named _ state _
  | indexed base index =>
    rw [load, address, ← shiftLeft_three]
    exact brings_set named _ state _

theorem store_puts {source : Reg} (spared : source ≠ .address) (element : Element) :
    Puts (element.address state) (state.get source) [.address] state
      (execAll platform (element.store source) state) := by
  cases element with
  | slot offset => exact storeSlot_puts platform state spared offset
  | based base offset => exact puts_store _ _ state _
  | indexed base index =>
    rw [store, address, ← shiftLeft_three]
    exact puts_store _ _ state _

end Element

end ArmBackend.Machine
