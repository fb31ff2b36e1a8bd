import ArmBackend.Frame.Convention
import ArmBackend.Machine.Operands
import ArmBackend.Text.Blank

/-!
# Instruction selection

The machine code of one three-address instruction.  Every instruction starts with
all scratch registers; the arguments of a call wait until the call is reached.
-/

namespace ArmBackend.Machine

open ArmBackend.Frame (reserve release)

/-- The arguments that wait for the next call, with their positions. -/
abbrev Pending := List (Nat × Ir.Operand)

def Cond.ofInt : Ir.Opcode → Cond
  | .eq => .eq
  | .ne => .ne
  | .lt => .lt
  | .le => .le
  | .gt => .gt
  | _ => .ge

/-- The condition of a comparison of floats: one that fails if either is not a number. -/
def Cond.ofFloat : Ir.Opcode → Cond
  | .lt => .mi
  | .le => .ls
  | opcode => .ofInt opcode

def logical (opcode : Ir.Opcode) (dest left right : Reg) : Instr :=
  .int (if opcode = .or then .orr else .and) dest left right

def unaryCode (opcode : Ir.Opcode) (isFloat : Bool) (dest source : Reg) : List Instr :=
  match opcode with
  | .neg =>
    if isFloat then
      [.fmovTo .first source, .fneg .first .first, .fmovFrom dest .first]
    else [.neg dest source]
  | .not => [.cmpImm source ⟨0, false⟩, .cset dest .eq]
  | .intToFloat => [.scvtf .first source, .fmovFrom dest .first]
  | _ => [.fmovTo .first source, .fcvtzs dest .first]

/-- The code of an operation on two floats, which are in general registers. -/
def floatCode (opcode : Ir.Opcode) (dest left right : Reg) : List Instr :=
  [.fmovTo .first left, .fmovTo .second right] ++
    match opcode with
    | .add => [.float .add .first .first .second, .fmovFrom dest .first]
    | .sub => [.float .sub .first .first .second, .fmovFrom dest .first]
    | .mul => [.float .mul .first .first .second, .fmovFrom dest .first]
    | .div => [.float .div .first .first .second, .fmovFrom dest .first]
    | .mod =>
      [.float .div .third .first .second, .frintz .third .third,
        .fmsub .first .third .second .first, .fmovFrom dest .first]
    | opcode =>
      if opcode.isComparison then [.fcmp .first .second, .cset dest (.ofFloat opcode)]
      else [logical opcode dest left right]

/-- The code of an operation on a register and a short constant, if there is one. -/
def constCode? (opcode : Ir.Opcode) (dest left : Reg) (imm : ArithImm) : Option (List Instr) :=
  match opcode with
  | .add => some [.addImm dest left imm]
  | .sub => some [.subImm dest left imm]
  | opcode =>
    if opcode.isComparison then some [.cmpImm left imm, .cset dest (.ofInt opcode)] else none

/-- The code of an operation on two integer registers; the remainder needs a third. -/
def intCode (opcode : Ir.Opcode) (dest left right : Reg) : Emit Unit :=
  match opcode with
  | .add => .code [.int .add dest left right]
  | .sub => .code [.int .sub dest left right]
  | .mul => .code [.int .mul dest left right]
  | .div => .code [.int .sdiv dest left right]
  | .mod => do
    let quotient ← Emit.scratch
    .code [.int .sdiv quotient left right, .int .mul quotient quotient right,
      .int .sub dest left quotient]
  | opcode =>
    if opcode.isComparison then .code [.cmp left right, .cset dest (.ofInt opcode)]
    else .code [logical opcode dest left right]

/-- The short constant that an operand stands for. -/
def arithImm? (operand : Ir.Operand) : Option ArithImm := do
  let value ← operand.immediate?
  ArithImm.ofInt? value.toWord.toInt

namespace Site

def unary (site : Site) (instr : Ir.Instr) : Emit Unit := do
  let dest ← Emit.required instr.dest
  let operand ← Emit.required instr.src1
  let source ← site.load operand
  let result ← site.target dest
  .code (unaryCode instr.opcode operand.type.isFloat result source)
  site.store result dest

/-- An operation on integers, with the second source as a constant where it can be one. -/
def intBinary (site : Site) (opcode : Ir.Opcode) (dest left : Reg) (operand : Ir.Operand) :
    Emit Unit :=
  match (arithImm? operand).bind (constCode? opcode dest left) with
  | some code => .code code
  | none => do
    let right ← site.load operand
    intCode opcode dest left right

/-- An operation with two sources; one float among them makes it an operation on floats. -/
def binary (site : Site) (instr : Ir.Instr) : Emit Unit := do
  let dest ← Emit.required instr.dest
  let first ← Emit.required instr.src1
  let second ← Emit.required instr.src2
  let left ← site.load first
  let result ← site.target dest
  if first.type.isFloat || second.type.isFloat then do
    let right ← site.load second
    .code (floatCode instr.opcode result left right)
  else
    site.intBinary instr.opcode result left second
  site.store result dest

/-- Bring an argument that has no register to the stack. -/
def stackArgument (site : Site) (position : Nat) (value : Ir.Operand) : Emit Unit :=
  match Frame.Convention.outgoing? position with
  | none => .done ()
  | some offset => do
    Emit.refill
    let register ← site.load value
    .code [.str register .sp offset]

/-- Bring an argument that has a register into it. -/
def registerArgument (site : Site) (position : Nat) (value : Ir.Operand) : Emit Unit :=
  match Frame.Convention.register? position with
  | none => .done ()
  | some register => do
    Emit.refill
    site.loadInto register value

def stackArguments (site : Site) : Pending → Emit Unit
  | [] => .done ()
  | (position, value) :: rest => do
    site.stackArgument position value
    site.stackArguments rest

def registerArguments (site : Site) : Pending → Emit Unit
  | [] => .done ()
  | (position, value) :: rest => do
    site.registerArgument position value
    site.registerArguments rest

def inOrder (pending : Pending) : Pending :=
  pending.mergeSort fun left right => decide (left.1 ≤ right.1)

/-- The count of arguments, from the last position. -/
def argumentCount (ordered : Pending) : Nat :=
  match ordered.getLast? with
  | some (position, _) => position + 1
  | none => 0

/-- Bring the result of a call to its destination, if it has one. -/
def takeResult (site : Site) : Option Ir.Operand → Emit Unit
  | none => .done ()
  | some dest => do
    Emit.refill
    let register ← site.target dest
    .code (if register = .result then [] else [.mov register .result])
    site.store register dest

/-- Bring the value that a function returns, if any, where the caller finds it. -/
def giveResult (site : Site) : Option Ir.Operand → Emit Unit
  | none => .done ()
  | some value => site.loadInto .result value

def call (site : Site) (pending : Pending) (instr : Ir.Instr) : Emit Unit := do
  let callee ← Emit.required instr.label
  let ordered := inOrder pending
  let area := Frame.Convention.outgoingArea (argumentCount ordered)
  .code (reserve area)
  site.stackArguments ordered
  site.registerArguments ordered
  .code [.bl callee]
  .code (release area)
  site.takeResult instr.dest

end Site

/-- The argument that an instruction makes wait, with its position, which is at least zero. -/
def argument? (instr : Ir.Instr) : Option (Nat × Ir.Operand) := do
  let position ← instr.immediate2?
  let value ← instr.src1
  return (position.toWord.toInt.toNat, value)

def shownText (instr : Ir.Instr) : String :=
  Text.trimmed instr.text

namespace Site

def select (site : Site) (pending : Pending) (instr : Ir.Instr) : Emit Unit :=
  match instr.opcode with
  | .enter | .allocArray | .nop => .done ()
  | .loadImm | .load | .move | .store | .loadAddr | .arrayLoad => do
    let dest ← Emit.required instr.dest
    let value ← Emit.required instr.src1
    site.assign dest value
  | .arrayStore => do
    let dest ← Emit.required instr.dest
    let value ← Emit.required instr.src1
    let source ← site.load value
    let element ← site.elementOf dest
    .code (element.store source)
  | .add | .sub | .mul | .div | .mod | .and | .or | .eq | .ne | .lt | .le | .gt | .ge =>
    site.binary instr
  | .neg | .not | .intToFloat | .floatToInt => site.unary instr
  | .label => do
    let name ← Emit.required instr.label
    .code [.label (Symbol.ofLabel name)]
  | .jump => do
    let name ← Emit.required instr.label
    .code [.b (Symbol.ofLabel name)]
  | .jumpIfTrue => do
    let name ← Emit.required instr.label
    let condition ← Emit.required instr.src1
    let register ← site.load condition
    .code [.cbnz register (Symbol.ofLabel name)]
  | .jumpIfFalse => do
    let name ← Emit.required instr.label
    let condition ← Emit.required instr.src1
    let register ← site.load condition
    .code [.cbz register (Symbol.ofLabel name)]
  | .arg => do
    let _ ← Emit.required (argument? instr)
    .done ()
  | .call => site.call pending instr
  | .ret => do
    site.giveResult instr.src1
    .code site.layout.epilogue
  | .exit => .code site.layout.epilogue
  | .print => do
    let value ← Emit.required instr.src1
    site.loadInto .result value
    .code [.bl (Symbol.ofPrint false value.type)]
  | .println => do
    let value ← Emit.required instr.src1
    site.loadInto .result value
    .code [.bl (Symbol.ofPrint true value.type)]
  | .push | .pop => .code [.placeholder (shownText instr)]

end Site

def pendingAfter (pending : Pending) (instr : Ir.Instr) : Pending :=
  match instr.opcode with
  | .arg => pending ++ (argument? instr).toList
  | .call => []
  | _ => pending

end ArmBackend.Machine
