import ArmBackend.Ir.Opcode
import ArmBackend.Ir.Operand

/-!
# Three-address instructions

Which of the operands and the label count depends on the operation; the
constructors below give each operation its usual shape.
-/

namespace ArmBackend.Ir

structure Instr where
  opcode : Opcode
  dest : Option Operand := none
  src1 : Option Operand := none
  src2 : Option Operand := none
  label : Option String := none
  comment : Option String := none
  line : Nat := 0
deriving DecidableEq

namespace Instr

def atLine (line : Nat) (instr : Instr) : Instr :=
  { instr with line }

def enter (function : String) : Instr :=
  { opcode := .enter, label := some function }

def exit (function : String) : Instr :=
  { opcode := .exit, label := some function }

/-- The literal takes the type of the destination. -/
def loadImm (dest : Operand) (value : Immediate) : Instr :=
  { opcode := .loadImm, dest := some dest, src1 := some (.immediate value dest.type) }

def unary (opcode : Opcode) (dest source : Operand) : Instr :=
  { opcode, dest := some dest, src1 := some source }

def binary (opcode : Opcode) (dest left right : Operand) : Instr :=
  { opcode, dest := some dest, src1 := some left, src2 := some right }

def load (dest place : Operand) : Instr :=
  unary .load dest place

def store (place value : Operand) : Instr :=
  unary .store place value

def loadAddr (dest target : Operand) : Instr :=
  unary .loadAddr dest target

def move (dest source : Operand) : Instr :=
  unary .move dest source

def arrayLoad (dest element : Operand) : Instr :=
  unary .arrayLoad dest element

def arrayStore (element value : Operand) : Instr :=
  unary .arrayStore element value

def allocArray (array : Operand) (count : Nat) : Instr :=
  unary .allocArray array (.nat count)

/-- The place that jumps to the label go to. -/
def mark (name : String) : Instr :=
  { opcode := .label, label := some name }

def jump (target : String) : Instr :=
  { opcode := .jump, label := some target }

/-- A jump that is taken when the condition has the given truth. -/
def jumpIf (truth : Bool) (condition : Operand) (target : String) : Instr :=
  { opcode := if truth then .jumpIfTrue else .jumpIfFalse, src1 := some condition,
    label := some target }

def arg (value : Operand) (position : Nat) : Instr :=
  { opcode := .arg, src1 := some value, src2 := some (.nat position) }

def call (callee : String) (dest : Option Operand) : Instr :=
  { opcode := .call, dest, label := some callee }

def ret (value : Option Operand) : Instr :=
  { opcode := .ret, src1 := value }

def print (newline : Bool) (value : Operand) : Instr :=
  { opcode := if newline then .println else .print, src1 := some value }

/-- The place that the destination names. -/
def defined (instr : Instr) : Option Location :=
  instr.dest.bind Operand.location?

def sources (instr : Instr) : List Operand :=
  instr.src1.toList ++ instr.src2.toList

/-- All operands that are there, the destination first. -/
def operands (instr : Instr) : List Operand :=
  instr.dest.toList ++ instr.sources

/-- The places that the instruction reads; a store to an element reads the array and the index. -/
def uses (instr : Instr) : List Location :=
  instr.sources.flatMap Operand.reads ++
    if instr.opcode = .arrayStore then instr.dest.toList.flatMap Operand.reads else []

def target? (instr : Instr) : Option String :=
  if instr.opcode.isBranch then instr.label else none

def immediate1? (instr : Instr) : Option Immediate :=
  instr.src1.bind Operand.immediate?

def immediate2? (instr : Instr) : Option Immediate :=
  instr.src2.bind Operand.immediate?

/-- The operation with its destination on the side where the listing shows it. -/
def headText (instr : Instr) : String :=
  match instr.dest with
  | some dest =>
    if instr.opcode.writesDest then dest.text ++ " = " ++ instr.opcode.name else instr.opcode.name
  | none => instr.opcode.name

def operandTexts (instr : Instr) : List String :=
  (if instr.opcode.writesDest then [] else instr.dest.toList.map Operand.text) ++
    instr.sources.map Operand.text ++ instr.label.toList

def bareText (instr : Instr) : String :=
  if instr.opcode = .label then instr.label.getD "?" ++ ":"
  else
    let operands := instr.operandTexts
    "    " ++ instr.headText ++
      if operands.isEmpty then "" else " " ++ String.intercalate ", " operands

def text (instr : Instr) : String :=
  instr.bareText ++
    match instr.comment with
    | some comment => "  ; " ++ comment
    | none => ""

end Instr

end ArmBackend.Ir
