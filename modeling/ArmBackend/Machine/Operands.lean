import ArmBackend.Frame.Layout
import ArmBackend.Ir.Program
import ArmBackend.Machine.Emit
import ArmBackend.Machine.Symbol

/-!
# Access to operands

How the value of an operand comes into a register and how a result goes to its
destination.  A value that lives in a register is used there; every other value
passes through a scratch register.
-/

namespace ArmBackend.Machine

open ArmBackend.Frame (Home Layout loadSlot storeSlot slotAddress)

inductive Element where
  /-- at an offset from the frame pointer -/
  | slot (offset : Int)
  | based (base : Reg) (offset : Nat)
  /-- at a base plus eight times an index -/
  | indexed (base index : Reg)
deriving DecidableEq

namespace Element

def load (dest : Reg) : Element → List Instr
  | slot offset => loadSlot dest offset
  | based base offset => [.ldr dest base offset]
  | indexed base index => [.ldrAt dest base index true]

def store (source : Reg) : Element → List Instr
  | slot offset => storeSlot source offset
  | based base offset => [.str source base offset]
  | indexed base index => [.strAt source base index true]

end Element

/-- The index of an element: known, or in a register. -/
inductive Index where
  | const (value : Word)
  | reg (register : Reg)
deriving DecidableEq

def symbolAddress (dest : Reg) (symbol : String) : List Instr :=
  [.adrp dest symbol, .addLow dest dest symbol]

def globalAddress (name : String) : List Instr :=
  symbolAddress .address (Symbol.ofGlobal name)

/-- The register contents that a literal of a type stands for. -/
def literalBits (value : Ir.Immediate) (type : DataType) : Word :=
  if type.isFloat then value.toReal.bits else value.toWord

/-- What the emission of an instruction can look up. -/
structure Site where
  layout : Layout
  globals : List Ir.Global := []

namespace Site

def hasGlobal (site : Site) (name : String) : Bool :=
  site.globals.any fun global => global.name == name

def home (site : Site) (operand : Ir.Operand) : Emit Home :=
  match operand.location?.bind site.layout.homes.get? with
  | some home => .done home
  | none => .fail (.noHome operand.text)

/-- The register that a temporary, variable or parameter lives in. -/
def register? (site : Site) : Ir.Operand → Option Reg
  | .temp name _ => (site.layout.homes.get? (.temp name)).bind Home.reg?
  | .var name _ => (site.layout.homes.get? (.var name)).bind Home.reg?
  | .param name _ => (site.layout.homes.get? (.param name)).bind Home.reg?
  | _ => none

/-- Offsets from the frame pointer have 32 bits with a sign. -/
def fitsOffset (offset : Int) : Bool :=
  decide (-2147483648 ≤ offset ∧ offset ≤ 2147483647)

def frameElement (base : Int) : Index → Emit Element
  | .reg register => do
    .code (slotAddress .address base)
    return .indexed .address register
  | .const value =>
    let offset := 8 * value.toInt + base
    if fitsOffset offset then return .slot offset
    else do
      let register ← Emit.scratch
      .code (loadConst register value)
      .code (slotAddress .address base)
      return .indexed .address register

def globalElement (array : String) (index : Index) : Emit Element := do
  .code (globalAddress array)
  match index with
  | .reg register => return .indexed .address register
  | .const value =>
    if 0 ≤ value.toInt ∧ value.toInt ≤ 4095 then return .based .address (8 * value.toNat)
    else do
      .code (loadConst .offset value)
      return .indexed .address .offset

/-- An element of the array of a name: one in the frame is preferred to one of the whole program. -/
def element (site : Site) (array : String) (index : Index) : Emit Element :=
  match site.layout.homes.get? (.var array) with
  | some (.array base _) => frameElement base index
  | _ => if site.hasGlobal array then globalElement array index else .fail (.unknownArray array)

/-- An index, which is brought into a scratch register unless it is known or in a register. -/
def indexBy (site : Site) (index : Ir.Operand) (loadInto : Reg → Emit Unit) : Emit Index :=
  match index.immediate?, site.register? index with
  | some value, _ => return .const value.toWord
  | none, some register => return .reg register
  | none, none => do
    let register ← Emit.scratch
    loadInto register
    return .reg register

/-- Bring the value at a home into a register; of an array this is its address. -/
def loadHome (dest : Reg) : Home → List Instr
  | .reg register => if register = dest then [] else [.mov dest register]
  | .slot offset => loadSlot dest offset
  | .array base _ => slotAddress dest base

def loadInto (site : Site) (dest : Reg) : Ir.Operand → Emit Unit
  | .immediate value type => .code (loadConst dest (literalBits value type))
  | .label name _ => .code (symbolAddress dest (Symbol.ofLabel name))
  | .global name _ => .code (globalAddress name ++ [.ldr dest .address 0])
  | .element array index _ => do
    let index ← site.indexBy index fun register => site.loadInto register index
    let element ← site.element array index
    .code (element.load dest)
  | .temp name type => do
    let home ← site.home (.temp name type)
    .code (loadHome dest home)
  | .var name type => do
    let home ← site.home (.var name type)
    .code (loadHome dest home)
  | .param name type => do
    let home ← site.home (.param name type)
    .code (loadHome dest home)

def load (site : Site) (operand : Ir.Operand) : Emit Reg :=
  match site.register? operand with
  | some register => return register
  | none => do
    let register ← Emit.scratch
    site.loadInto register operand
    return register

/-- A register to compute the value of a destination in. -/
def target (site : Site) (dest : Ir.Operand) : Emit Reg :=
  match site.register? dest with
  | some register => return register
  | none => Emit.scratch

/-- Bring a computed value from a register to a home; an array cannot be one. -/
def storeHome (source : Reg) : Home → Emit Unit
  | .reg register => .code (if register = source then [] else [.mov register source])
  | .slot offset => .code (storeSlot source offset)
  | .array _ _ => .fail .malformed

def store (site : Site) (source : Reg) (dest : Ir.Operand) : Emit Unit :=
  match dest with
  | .global name _ => .code (globalAddress name ++ [.str source .address 0])
  | _ => do
    let home ← site.home dest
    storeHome source home

def assign (site : Site) (dest value : Ir.Operand) : Emit Unit :=
  match site.register? dest with
  | some register => site.loadInto register value
  | none => do
    let register ← site.load value
    site.store register dest

def elementOf (site : Site) : Ir.Operand → Emit Element
  | .element array index _ => do
    let index ← site.indexBy index fun register => site.loadInto register index
    site.element array index
  | _ => .fail .malformed

end Site

end ArmBackend.Machine
