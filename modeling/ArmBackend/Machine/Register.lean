/-!
# Registers

The general registers and the double-precision registers of the target, with the
roles that the calling convention and the code generator give them.
-/

namespace ArmBackend.Machine

/-- A 64-bit general register, the stack pointer, or the register that reads as zero. -/
inductive Reg where
  | x (number : Fin 31)
  | sp
  | zr
deriving DecidableEq

namespace Reg

def fp : Reg := .x 29

/-- The link register, which holds the return address. -/
def lr : Reg := .x 30

/-- Where addresses and far offsets are formed. -/
def address : Reg := .x 16

def offset : Reg := .x 17

/-- The results of calls come back here. -/
def result : Reg := .x 0

/-- The first arguments of a call, by position. -/
def arguments : List Reg :=
  [.x 0, .x 1, .x 2, .x 3, .x 4, .x 5, .x 6, .x 7]

/-- The registers that operands go through during one instruction. -/
def scratch : List Reg :=
  [.x 9, .x 10, .x 11, .x 12, .x 13, .x 14, .x 15]

/-- The registers that hold values across instructions; a function saves those it uses. -/
def pool : List Reg :=
  [.x 19, .x 20, .x 21, .x 22, .x 23, .x 24, .x 25, .x 26, .x 27, .x 28]

def text : Reg → String
  | x number => "x" ++ toString number.val
  | sp => "sp"
  | zr => "xzr"

def all : List Reg :=
  (List.finRange 31).map x ++ [sp, zr]

def ofText? (text : String) : Option Reg :=
  all.find? fun reg => reg.text == text

end Reg

structure FloatReg where
  number : Fin 32
deriving DecidableEq

namespace FloatReg

/-- The registers that float operations go through. -/
def first : FloatReg := ⟨16⟩

def second : FloatReg := ⟨17⟩

def third : FloatReg := ⟨18⟩

def text (reg : FloatReg) : String :=
  "d" ++ toString reg.number.val

def all : List FloatReg :=
  (List.finRange 32).map mk

def ofText? (text : String) : Option FloatReg :=
  all.find? fun reg => reg.text == text

end FloatReg

inductive Cond where
  | eq
  | ne
  | lt
  | le
  | gt
  | ge
  /-- negative: less than, of floats -/
  | mi
  /-- lower or same: less or equal, of floats -/
  | ls
deriving DecidableEq

namespace Cond

def text : Cond → String
  | eq => "eq"
  | ne => "ne"
  | lt => "lt"
  | le => "le"
  | gt => "gt"
  | ge => "ge"
  | mi => "mi"
  | ls => "ls"

def all : List Cond :=
  [eq, ne, lt, le, gt, ge, mi, ls]

def ofText? (text : String) : Option Cond :=
  all.find? fun cond => cond.text == text

end Cond

end ArmBackend.Machine
