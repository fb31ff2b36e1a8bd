import ArmBackend.Ir.Pass.Revision

/-!
# Constant folding

Operations on literals are carried out at once.  Integers wrap around at 64 bits
and their division cuts toward zero, as in the machine.  A division by zero is
left alone.
-/

namespace ArmBackend.Ir

namespace Immediate

def ofBool (truth : Bool) : Immediate :=
  .int (.ofBool truth)

/-- The literal as a place of the type holds it. -/
def fit (type : DataType) : Immediate → Immediate
  | .int value => if type.isFloat then .float (.ofWord value) else .int value
  | .float value => if type.isFloat then .float value else .int value.toWord

end Immediate

namespace Opcode

def foldFloat? (left right : Binary64) : Opcode → Option Immediate
  | .add => some (.float (left.add right))
  | .sub => some (.float (left.sub right))
  | .mul => some (.float (left.mul right))
  | .div => some (.float (left.div right))
  | .mod => some (.float (left.rem right))
  | .eq => some (.ofBool (left.equal right))
  | .ne => some (.ofBool (!left.equal right))
  | .lt => some (.ofBool (left.less right))
  | .le => some (.ofBool (left.lessEqual right))
  | .gt => some (.ofBool (right.less left))
  | .ge => some (.ofBool (right.lessEqual left))
  | _ => none

/-- The operation on two integers; a divisor is not zero. -/
def foldInt? (left right : Word) : Opcode → Option Immediate
  | .add => some (.int (left + right))
  | .sub => some (.int (left - right))
  | .mul => some (.int (left * right))
  | .div => some (.int (left.sdiv right))
  | .mod => some (.int (left.srem right))
  | .and => some (.int (left &&& right))
  | .or => some (.int (left ||| right))
  | .eq => some (.ofBool (left == right))
  | .ne => some (.ofBool (left != right))
  | .lt => some (.ofBool (left.slt right))
  | .le => some (.ofBool (left.sle right))
  | .gt => some (.ofBool (right.slt left))
  | .ge => some (.ofBool (right.sle left))
  | _ => none

/-- The operation on two literals, in floats as soon as one of them is a float. -/
def foldBinary? (opcode : Opcode) (left right : Immediate) : Option Immediate :=
  if left.isFloat || right.isFloat then opcode.foldFloat? left.toReal right.toReal
  else opcode.foldInt? left.toWord right.toWord

def foldUnary? : Opcode → Immediate → Option Immediate
  | .move, value => some value
  | .intToFloat, value => some (.float value.toReal)
  | .floatToInt, value => some (.int value.toReal.toWord)
  | .neg, .int value => some (.int (-value))
  | .neg, .float value => some (.float value.neg)
  | .not, value => some (.ofBool value.isZero)
  | _, _ => none

def divides : Opcode → Bool
  | .div | .mod => true
  | _ => false

end Opcode

namespace Instr

def dividesByZero (instr : Instr) : Bool :=
  instr.opcode.divides && instr.immediate1?.isSome &&
    match instr.immediate2? with
    | some divisor => divisor.isZero
    | none => false

def folded? (instr : Instr) : Option Immediate :=
  if instr.opcode.isBinary then
    match instr.immediate1?, instr.immediate2? with
    | some left, some right =>
      if instr.dividesByZero then none else instr.opcode.foldBinary? left right
    | _, _ => none
  else if instr.opcode.isPure then instr.immediate1?.bind instr.opcode.foldUnary?
  else none

/-- The load of the literal that the instruction computes. -/
def fold? (instr : Instr) : Option Instr :=
  match instr.folded?, instr.dest with
  | some value, some dest =>
    some { loadImm dest (value.fit dest.type) with comment := instr.comment, line := instr.line }
  | _, _ => none

end Instr

def foldConstants : List Instr → Revision
  | [] => .done
  | instr :: rest =>
    match instr.fold? with
    | some loaded => .cons loaded true (foldConstants rest)
    | none => .cons instr false (foldConstants rest)

/-- The divisions by zero that folding leaves alone. -/
def zeroDivisions (code : List Instr) : List Instr :=
  code.filter Instr.dividesByZero

end ArmBackend.Ir
