import ArmBackend.Machine.Instr
import ArmBackend.Proofs.Machine.Memory

/-!
# What machine instructions do

The state of the machine is its registers, its flags and its memory.  Arithmetic wraps
around at 64 bits and a division by zero gives zero.  The operations on floats are those
of a platform, on patterns of which nothing is known; the platform also tells where the
symbols are.
-/

namespace ArmBackend.Machine

/-- There are general registers. -/
instance neZero_registers : NeZero 31 :=
  ⟨by decide⟩

/-- What the last comparison has left. -/
structure Flags where
  negative : Bool
  zero : Bool
  carry : Bool
  overflow : Bool
deriving DecidableEq

/-- How two floats compare; they are unordered if one of them is not a number. -/
inductive FloatOrder where
  | less
  | equal
  | greater
  | unordered
deriving DecidableEq

def FloatOrder.flags : FloatOrder → Flags
  | less => ⟨true, false, false, false⟩
  | equal => ⟨false, true, true, false⟩
  | greater => ⟨false, false, true, false⟩
  | unordered => ⟨false, false, true, true⟩

/-- The flags of the subtraction that compares two words. -/
def Flags.ofWords (left right : Word) : Flags where
  negative := (left - right).msb
  zero := left == right
  carry := decide (right.toNat ≤ left.toNat)
  overflow := left.msb != right.msb && (left - right).msb != left.msb

def Cond.holds (flags : Flags) : Cond → Bool
  | eq => flags.zero
  | ne => !flags.zero
  | lt => flags.negative != flags.overflow
  | le => flags.zero || flags.negative != flags.overflow
  | gt => !flags.zero && flags.negative == flags.overflow
  | ge => flags.negative == flags.overflow
  | mi => flags.negative
  | ls => !flags.carry || flags.zero

/-- The addresses of symbols and the operations on the patterns of floats. -/
structure Platform where
  symbol : String → Word
  binary : FloatOp → Word → Word → Word
  negate : Word → Word
  /-- round toward zero -/
  truncate : Word → Word
  /-- `minuend - left * right` -/
  multiplySubtract : (left right minuend : Word) → Word
  ofInt : Word → Word
  toInt : Word → Word
  compare : Word → Word → FloatOrder

@[ext]
structure State where
  general : Fin 31 → Word
  stack : Word
  floats : FloatReg → Word
  flags : Flags
  memory : Memory

namespace State

def get (state : State) : Reg → Word
  | .x number => state.general number
  | .sp => state.stack
  | .zr => 0

/-- Write a register; what is written to the zero register is lost. -/
def set (state : State) (reg : Reg) (value : Word) : State :=
  match reg with
  | .x number =>
    { state with general := fun other => if other = number then value else state.general other }
  | .sp => { state with stack := value }
  | .zr => state

def setFloat (state : State) (reg : FloatReg) (value : Word) : State :=
  { state with floats := fun other => if other = reg then value else state.floats other }

def setFlags (state : State) (flags : Flags) : State :=
  { state with flags }

/-- Put a word into memory. -/
def store (state : State) (address value : Word) : State :=
  { state with memory := state.memory.store address value }

section

variable (state : State) (reg other : Reg) (value address : Word)

theorem get_set :
    (state.set reg value).get other =
      if other = reg ∧ reg ≠ .zr then value else state.get other := by
  cases reg <;> cases other <;> simp [set, get]

@[simp]
theorem get_set_self (named : reg ≠ .zr) : (state.set reg value).get reg = value := by
  rw [get_set, if_pos ⟨rfl, named⟩]

theorem get_set_ne {reg other : Reg} (differ : other ≠ reg) :
    (state.set reg value).get other = state.get other := by
  rw [get_set, if_neg fun both => differ both.1]

@[simp]
theorem floats_set : (state.set reg value).floats = state.floats := by
  cases reg <;> rfl

@[simp]
theorem flags_set : (state.set reg value).flags = state.flags := by
  cases reg <;> rfl

@[simp]
theorem memory_set : (state.set reg value).memory = state.memory := by
  cases reg <;> rfl

theorem set_get : state.set reg (state.get reg) = state := by
  cases reg with
  | x number =>
    have same : (fun other => if other = number then state.general number
        else state.general other) = state.general := by
      funext other
      split
      · next equal => rw [equal]
      · rfl
    simp only [set, get, same]
  | sp => rfl
  | zr => rfl

variable (float : FloatReg) (flags : Flags)

@[simp]
theorem get_setFloat : (state.setFloat float value).get reg = state.get reg := by
  cases reg <;> rfl

@[simp]
theorem floats_setFloat_self : (state.setFloat float value).floats float = value :=
  if_pos rfl

theorem floats_setFloat_ne {float other : FloatReg} (differ : other ≠ float) :
    (state.setFloat float value).floats other = state.floats other :=
  if_neg differ

@[simp]
theorem memory_setFloat : (state.setFloat float value).memory = state.memory :=
  rfl

@[simp]
theorem get_setFlags : (state.setFlags flags).get reg = state.get reg := by
  cases reg <;> rfl

@[simp]
theorem flags_setFlags : (state.setFlags flags).flags = flags :=
  rfl

@[simp]
theorem floats_setFlags : (state.setFlags flags).floats = state.floats :=
  rfl

@[simp]
theorem memory_setFlags : (state.setFlags flags).memory = state.memory :=
  rfl

@[simp]
theorem get_store : (state.store address value).get reg = state.get reg := by
  cases reg <;> rfl

@[simp]
theorem floats_store : (state.store address value).floats = state.floats :=
  rfl

@[simp]
theorem memory_store :
    (state.store address value).memory = state.memory.store address value :=
  rfl

end

end State

def IntOp.apply (left right : Word) : IntOp → Word
  | add => left + right
  | sub => left - right
  | mul => left * right
  | sdiv => left.sdiv right
  | and => left &&& right
  | orr => left ||| right

/-- The page of an address. -/
def page (address : Word) : Word :=
  address &&& ~~~0xfff#64

/-- The place of an address within its page. -/
def withinPage (address : Word) : Word :=
  address &&& 0xfff#64

theorem and_not_add_and (word mask : Word) : (word &&& ~~~mask) + (word &&& mask) = word := by
  have none : (word &&& ~~~mask) &&& (word &&& mask) = 0#64 := by
    ext bit
    simp
    grind
  rw [BitVec.add_eq_or_of_and_eq_zero _ _ none]
  ext bit
  simp
  grind

theorem page_add_withinPage (address : Word) : page address + withinPage address = address :=
  and_not_add_and address 0xfff#64

namespace Instr

/-- The state behind an instruction that does not send control elsewhere. -/
def exec (platform : Platform) (state : State) : Instr → State
  | mov dest source => state.set dest (state.get source)
  | movConst dest value => state.set dest value
  | movz dest chunk shift => state.set dest (chunk.setWidth 64 <<< shift)
  | movn dest chunk shift => state.set dest (~~~(chunk.setWidth 64 <<< shift))
  | movk dest chunk shift =>
    state.set dest
      (state.get dest &&& ~~~((BitVec.allOnes 16).setWidth 64 <<< shift) |||
        chunk.setWidth 64 <<< shift)
  | fmovTo dest source => state.setFloat dest (state.get source)
  | fmovFrom dest source => state.set dest (state.floats source)
  | int op dest left right => state.set dest (op.apply (state.get left) (state.get right))
  | addImm dest source imm => state.set dest (state.get source + BitVec.ofNat 64 imm.value)
  | subImm dest source imm => state.set dest (state.get source - BitVec.ofNat 64 imm.value)
  | neg dest source => state.set dest (-state.get source)
  | float op dest left right =>
    state.setFloat dest (platform.binary op (state.floats left) (state.floats right))
  | fneg dest source => state.setFloat dest (platform.negate (state.floats source))
  | frintz dest source => state.setFloat dest (platform.truncate (state.floats source))
  | fmsub dest left right minuend =>
    state.setFloat dest
      (platform.multiplySubtract (state.floats left) (state.floats right) (state.floats minuend))
  | scvtf dest source => state.setFloat dest (platform.ofInt (state.get source))
  | fcvtzs dest source => state.set dest (platform.toInt (state.floats source))
  | fcmp left right =>
    state.setFlags (platform.compare (state.floats left) (state.floats right)).flags
  | cmp left right => state.setFlags (.ofWords (state.get left) (state.get right))
  | cmpImm left imm => state.setFlags (.ofWords (state.get left) (BitVec.ofNat 64 imm.value))
  | cset dest cond => state.set dest (.ofBool (cond.holds state.flags))
  | ldur dest base offset =>
    state.set dest (state.memory.load (state.get base + BitVec.ofInt 64 offset))
  | stur source base offset =>
    state.store (state.get base + BitVec.ofInt 64 offset) (state.get source)
  | ldr dest base offset =>
    state.set dest (state.memory.load (state.get base + BitVec.ofNat 64 offset))
  | str source base offset =>
    state.store (state.get base + BitVec.ofNat 64 offset) (state.get source)
  | ldrAt dest base index scaled =>
    state.set dest
      (state.memory.load (state.get base + state.get index <<< (if scaled then 3 else 0)))
  | strAt source base index scaled =>
    state.store (state.get base + state.get index <<< (if scaled then 3 else 0))
      (state.get source)
  | stpPre first second base offset =>
    let address := state.get base + BitVec.ofInt 64 offset
    ((state.store address (state.get first)).store (address + 8) (state.get second)).set base
      address
  | ldpPost first second base offset =>
    let address := state.get base
    ((state.set first (state.memory.load address)).set second
      (state.memory.load (address + 8))).set base (address + BitVec.ofInt 64 offset)
  | adrp dest symbol => state.set dest (page (platform.symbol symbol))
  | addLow dest source symbol =>
    state.set dest (state.get source + withinPage (platform.symbol symbol))
  | b _ | cbz _ _ | cbnz _ _ | bl _ | ret | label _ | directive _ | comment _ | placeholder _ =>
    state

/-- Where control goes behind an instruction. -/
inductive Control where
  | next
  | jump (target : String)
  | call (symbol : String)
  | ret

def control (state : State) : Instr → Control
  | b target => .jump target
  | cbz source target => if state.get source = 0 then .jump target else .next
  | cbnz source target => if state.get source = 0 then .next else .jump target
  | bl symbol => .call symbol
  | ret => .ret
  | _ => .next

/-- Control always goes on behind the instruction. -/
def isStraight : Instr → Bool
  | b _ | cbz _ _ | cbnz _ _ | bl _ | ret => false
  | _ => true

theorem control_of_isStraight {instr : Instr} (straight : instr.isStraight = true)
    (state : State) : instr.control state = .next := by
  cases instr <;> first | rfl | cases straight

theorem isStraight_of_not_isBoundary {instr : Instr} (inner : instr.isBoundary = false) :
    instr.isStraight = true := by
  cases instr <;> first | rfl | cases inner

end Instr

/-- The state behind instructions in a row. -/
def execAll (platform : Platform) (code : List Instr) (state : State) : State :=
  code.foldl (Instr.exec platform) state

variable (platform : Platform)

@[simp]
theorem execAll_nil (state : State) : execAll platform [] state = state :=
  rfl

@[simp]
theorem execAll_cons (instr : Instr) (rest : List Instr) (state : State) :
    execAll platform (instr :: rest) state = execAll platform rest (instr.exec platform state) :=
  rfl

@[simp]
theorem execAll_append (first second : List Instr) (state : State) :
    execAll platform (first ++ second) state =
      execAll platform second (execAll platform first state) :=
  List.foldl_append

end ArmBackend.Machine
