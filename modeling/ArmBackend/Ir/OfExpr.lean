import ArmBackend.Ir.Context
import ArmBackend.Ir.Storage

/-!
# Code of expressions

An expression becomes code and the operand that holds its value behind that
code.  Literals and names of the function need no code; every computed value has
a new temporary.
-/

namespace ArmBackend.Ir

/-- Code, the operand that holds its value, and the names issued so far. -/
structure Lowered where
  operand : Operand
  code : List Instr
  context : Context
deriving DecidableEq

structure LoweredList where
  operands : List Operand
  code : List Instr
  context : Context
deriving DecidableEq

namespace Opcode

def ofBinary : BinaryOp → Opcode
  | .add => .add
  | .sub => .sub
  | .mul => .mul
  | .div => .div
  | .mod => .mod
  | .and => .and
  | .or => .or
  | .equal => .eq
  | .notEqual => .ne
  | .less => .lt
  | .greater => .gt
  | .lessEqual => .le
  | .greaterEqual => .ge

/-- The conversion between two types; types of one kind are copied. -/
def ofCast (source target : DataType) : Opcode :=
  match source.isFloat, target.isFloat with
  | false, true => .intToFloat
  | true, false => .floatToInt
  | _, _ => .move

end Opcode

namespace Lowered

/-- A value that needs no code. -/
def value (context : Context) (operand : Operand) : Lowered :=
  ⟨operand, [], context⟩

/-- One instruction whose result is a new temporary. -/
def computed (context : Context) (type : DataType) (line : Nat) (instr : Operand → Instr) :
    Lowered :=
  let (dest, context) := context.newTemp type
  ⟨dest, [(instr dest).atLine line], context⟩

def after (code : List Instr) (lowered : Lowered) : Lowered :=
  { lowered with code := code ++ lowered.code }

def promote (context : Context) (line : Nat) (operand : Operand) : Lowered :=
  if operand.type.isFloat then value context operand
  else computed context .float line fun dest => .unary .intToFloat dest operand

/--
Fit a value to the type of the place that it goes to: an integer that goes to a
float place is converted, a literal at once.
-/
def coerce (context : Context) (line : Nat) (target : DataType) (operand : Operand) : Lowered :=
  if !target.isFloat || operand.type.isFloat || operand.type.isVoid then value context operand
  else
    match operand.immediate? with
    | some literal => value context (.float literal.toReal)
    | none => promote context line operand

def coerced (line : Nat) (target : DataType) (lowered : Lowered) : Lowered :=
  (coerce lowered.context line target lowered.operand).after lowered.code

/-- The operation on two values; sides of which one is a float are both made floats. -/
def binary (context : Context) (line : Nat) (op : BinaryOp) (left right : Operand) : Lowered :=
  if op.isLogical then
    computed context .bool line fun dest => .binary (.ofBinary op) dest left right
  else if left.type.isFloat == right.type.isFloat then
    operation context left right
  else
    let left := promote context line left
    let right := promote left.context line right
    (operation right.context left.operand right.operand).after (left.code ++ right.code)
where
  /-- Both sides are floats or neither is. -/
  operation (context : Context) (left right : Operand) : Lowered :=
    let type := if op.isComparison then .bool else DataType.arithmetic left.type right.type
    computed context type line fun dest => .binary (.ofBinary op) dest left right

def unary (context : Context) (line : Nat) (op : UnaryOp) (operand : Operand) : Lowered :=
  match op with
  | .minus => computed context operand.type line fun dest => .unary .neg dest operand
  | .not => computed context .bool line fun dest => .unary .not dest operand

def cast (context : Context) (line : Nat) (target : DataType) (operand : Operand) : Lowered :=
  computed context target line fun dest => .unary (.ofCast operand.type target) dest operand

def read (context : Context) (line : Nat) : Storage → Lowered
  | .direct operand => value context operand
  | .shared global => computed context global.type line fun dest => .load dest global
  | .array name element => value context (.var name element)

def string (context : Context) (line : Nat) (literal : String) : Lowered :=
  let (id, context) := context.intern literal
  computed context .str line fun dest => .loadAddr dest (.stringRef id)

def element (context : Context) (line : Nat) (array : String) (type : DataType)
    (index : Operand) : Lowered :=
  computed context type line fun dest => .arrayLoad dest (.element array index type)

/-- The arguments of a call in order, from the given position on. -/
def argCode (line : Nat) : (position : Nat) → List Operand → List Instr
  | _, [] => []
  | position, operand :: rest =>
    (Instr.arg operand position).atLine line :: argCode line (position + 1) rest

/-- A call; one without a result has the value zero. -/
def call (context : Context) (line : Nat) (callee : String) (result : DataType)
    (arguments : List Operand) : Lowered :=
  (if result.isVoid then ⟨.int 0, [(Instr.call callee none).atLine line], context⟩
    else computed context result line fun dest => .call callee (some dest)).after
    (argCode line 0 arguments)

end Lowered

mutual

def lowerExpr (place : Place) (bindings : Bindings) : Context → Expr → Lowered
  | context, .int _ value => .value context (.int value)
  | context, .float _ value => .value context (.float value)
  | context, .bool _ value => .value context (.bool value)
  | context, .str position value => .string context position.line value
  | context, .name position name => .read context position.line (place.resolve bindings name)
  | context, .binary position op left right =>
    let left := lowerExpr place bindings context left
    let right := lowerExpr place bindings left.context right
    (Lowered.binary right.context position.line op left.operand right.operand).after
      (left.code ++ right.code)
  | context, .unary position op operand =>
    let operand := lowerExpr place bindings context operand
    (Lowered.unary operand.context position.line op operand.operand).after operand.code
  | context, .call position callee arguments =>
    let arguments := lowerExprs place bindings context arguments
    (Lowered.call arguments.context position.line callee (place.around.resultType callee)
      arguments.operands).after arguments.code
  | context, .index position array index =>
    let index := lowerExpr place bindings context index
    (Lowered.element index.context position.line array (place.resolve bindings array).type
      index.operand).after index.code
  | context, .cast position target operand =>
    let operand := lowerExpr place bindings context operand
    (Lowered.cast operand.context position.line target operand.operand).after operand.code

def lowerExprs (place : Place) (bindings : Bindings) : Context → List Expr → LoweredList
  | context, [] => ⟨[], [], context⟩
  | context, expr :: rest =>
    let first := lowerExpr place bindings context expr
    let others := lowerExprs place bindings first.context rest
    ⟨first.operand :: others.operands, first.code ++ others.code, others.context⟩

end

end ArmBackend.Ir
