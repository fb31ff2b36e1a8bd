/-!
# Opcodes

The closed set of three-address operations, and the classes of operations that
the passes distinguish.
-/

namespace ArmBackend.Ir

inductive Opcode where
  | loadImm
  | load
  | store
  | loadAddr
  | move
  | add
  | sub
  | mul
  | div
  | mod
  | neg
  | and
  | or
  | not
  | eq
  | ne
  | lt
  | le
  | gt
  | ge
  | label
  | jump
  | jumpIfTrue
  | jumpIfFalse
  | call
  | ret
  | enter
  | exit
  | arg
  | allocArray
  | push
  | pop
  | intToFloat
  | floatToInt
  | arrayLoad
  | arrayStore
  | print
  | println
  | nop
deriving DecidableEq

namespace Opcode

def all : List Opcode :=
  [.loadImm, .load, .store, .loadAddr, .move, .add, .sub, .mul, .div, .mod, .neg, .and, .or, .not,
    .eq, .ne, .lt, .le, .gt, .ge, .label, .jump, .jumpIfTrue, .jumpIfFalse, .call, .ret, .enter,
    .exit, .arg, .allocArray, .push, .pop, .intToFloat, .floatToInt, .arrayLoad, .arrayStore,
    .print, .println, .nop]

def name : Opcode → String
  | .loadImm => "LoadImm"
  | .load => "Load"
  | .store => "Store"
  | .loadAddr => "LoadAddr"
  | .move => "Move"
  | .add => "Add"
  | .sub => "Sub"
  | .mul => "Mul"
  | .div => "Div"
  | .mod => "Mod"
  | .neg => "Neg"
  | .and => "And"
  | .or => "Or"
  | .not => "Not"
  | .eq => "Eq"
  | .ne => "Ne"
  | .lt => "Lt"
  | .le => "Le"
  | .gt => "Gt"
  | .ge => "Ge"
  | .label => "Label"
  | .jump => "Jump"
  | .jumpIfTrue => "JumpIfTrue"
  | .jumpIfFalse => "JumpIfFalse"
  | .call => "Call"
  | .ret => "Return"
  | .enter => "FuncEnter"
  | .exit => "FuncExit"
  | .arg => "Arg"
  | .allocArray => "AllocArray"
  | .push => "Push"
  | .pop => "Pop"
  | .intToFloat => "IntToFloat"
  | .floatToInt => "FloatToInt"
  | .arrayLoad => "ArrayLoad"
  | .arrayStore => "ArrayStore"
  | .print => "Print"
  | .println => "Println"
  | .nop => "Nop"

def ofName? (text : String) : Option Opcode :=
  all.find? fun opcode => opcode.name == text

def isComparison : Opcode → Bool
  | .eq | .ne | .lt | .le | .gt | .ge => true
  | _ => false

def isBinary : Opcode → Bool
  | .add | .sub | .mul | .div | .mod | .and | .or => true
  | opcode => opcode.isComparison

def isBranch : Opcode → Bool
  | .jump | .jumpIfTrue | .jumpIfFalse => true
  | _ => false

/-- Operations whose result depends on their sources alone. -/
def isPure : Opcode → Bool
  | .neg | .not | .move | .intToFloat | .floatToInt => true
  | opcode => opcode.isBinary

/-- Operations that must stay whether or not their result is read. -/
def hasEffect : Opcode → Bool
  | .call | .ret | .store | .arrayStore | .jump | .jumpIfTrue | .jumpIfFalse | .label | .print
  | .println => true
  | _ => false

/-- Operations that may go once their result is not read. -/
def isRemovable : Opcode → Bool
  | .loadImm | .load | .loadAddr | .arrayLoad | .allocArray => true
  | opcode => opcode.isPure

/-- The destination is written as a result, and not named as a target of the store. -/
def writesDest : Opcode → Bool
  | .store | .arrayStore => false
  | _ => true

end Opcode

end ArmBackend.Ir
