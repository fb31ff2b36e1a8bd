import ArmBackend.Ir.Storage
import ArmBackend.Proofs.Ir.Semantics

/-!
# Values and variables of the source language

A value is a pattern with a type.  Variables live in lexical scopes; a name at top
level that some function uses as well is shared by the whole program.  Whatever the
language leaves undefined is a fault.
-/

namespace ArmBackend.Source

open Ir (Declared TopLevel Globals)

structure Value where
  type : DataType
  bits : Word
deriving DecidableEq

namespace Value

def ofReal (value : Binary64) : Value :=
  ⟨.float, value.bits⟩

def ofBool (truth : Bool) : Value :=
  ⟨.bool, .ofBool truth⟩

/-- What a variable of the type holds before it is assigned. -/
def zero (type : DataType) : Value :=
  ⟨type, 0⟩

def isTrue (value : Value) : Bool :=
  value.bits != 0

/-- The value as a float; all that is no float is converted as an integer. -/
def real (value : Value) : Binary64 :=
  if value.type.isFloat then ⟨value.bits⟩ else .ofWord value.bits

/-- The value as a place of the type takes it: a float place converts. -/
def coerce (target : DataType) (value : Value) : Value :=
  if target.isFloat && !value.type.isVoid then .ofReal value.real else value

/-- The operation on two integers; integers wrap around, and division cuts toward zero. -/
def onInts (left right : Word) : BinaryOp → Value
  | .add => ⟨.int, left + right⟩
  | .sub => ⟨.int, left - right⟩
  | .mul => ⟨.int, left * right⟩
  | .div => ⟨.int, left.sdiv right⟩
  | .mod => ⟨.int, left.srem right⟩
  | .and => ⟨.bool, left &&& right⟩
  | .or => ⟨.bool, left ||| right⟩
  | .equal => .ofBool (left == right)
  | .notEqual => .ofBool (left != right)
  | .less => .ofBool (left.slt right)
  | .greater => .ofBool (right.slt left)
  | .lessEqual => .ofBool (left.sle right)
  | .greaterEqual => .ofBool (right.sle left)

/-- The operation on two floats. -/
def onReals (left right : Binary64) : BinaryOp → Value
  | .add => .ofReal (left.add right)
  | .sub => .ofReal (left.sub right)
  | .mul => .ofReal (left.mul right)
  | .div => .ofReal (left.div right)
  | .mod => .ofReal (left.rem right)
  | .and => ⟨.bool, left.bits &&& right.bits⟩
  | .or => ⟨.bool, left.bits ||| right.bits⟩
  | .equal => .ofBool (left.equal right)
  | .notEqual => .ofBool (!left.equal right)
  | .less => .ofBool (left.less right)
  | .greater => .ofBool (right.less left)
  | .lessEqual => .ofBool (left.lessEqual right)
  | .greaterEqual => .ofBool (right.lessEqual left)

/-- The logical operations work on patterns; for the others one float makes both floats. -/
def binary (op : BinaryOp) (left right : Value) : Value :=
  if !op.isLogical && (left.type.isFloat || right.type.isFloat) then
    onReals left.real right.real op
  else onInts left.bits right.bits op

def unary (op : UnaryOp) (value : Value) : Value :=
  match op with
  | .minus =>
    if value.type.isFloat then .ofReal (Binary64.neg ⟨value.bits⟩)
    else ⟨value.type, -value.bits⟩
  | .not => .ofBool (value.bits == 0)

/-- Between integers and floats the number is kept, otherwise the pattern. -/
def cast (target : DataType) (value : Value) : Value :=
  if target.isFloat then ⟨target, value.real.bits⟩
  else if value.type.isFloat then ⟨target, Binary64.toWord ⟨value.bits⟩⟩
  else ⟨target, value.bits⟩

end Value

/-- What the language does not define. -/
inductive Fault where
  | undeclared (name : String)
  | arrayAsScalar (name : String)
  | scalarAsArray (name : String)
  | outOfRange (array : String)
  | unwritten (array : String)
  | wrongType
  | unknownFunction (name : String)
  | noResult (function : String)
  | strayJump
deriving DecidableEq

inductive Variable where
  | scalar (value : Value)
  /-- elements that were not written yet have no contents -/
  | array (element : DataType) (size : Nat) (contents : Word → Option Word)

/-- The variables of an activation, the innermost first. -/
abbrev Scopes := List (String × Variable)

namespace Scopes

/-- Give a variable new contents. -/
def update (scopes : Scopes) (name : String) (slot : Variable) : Scopes :=
  scopes.map fun entry => if entry.1 = name then (name, slot) else entry

end Scopes

/-- All that statements can change. -/
structure World where
  scopes : Scopes
  globals : Globals
  output : List Printed

inductive Outcome (α : Type) where
  | done (value : α) (world : World)
  | fault (fault : Fault)
  /-- there was not time enough -/
  | timeout (output : List Printed)

/-- A computation that may change the world. -/
def Run (α : Type) := World → Outcome α

namespace Run

def bind {α β : Type} (first : Run α) (next : α → Run β) : Run β := fun world =>
  match first world with
  | .done value world => next value world
  | .fault fault => .fault fault
  | .timeout output => .timeout output

instance : Monad Run where
  pure value := fun world => .done value world
  bind := Run.bind

def fail {α : Type} (fault : Fault) : Run α := fun _ => .fault fault

def outOfTime {α : Type} : Run α := fun world => .timeout world.output

/-- Variables that a computation declares are gone behind it. -/
def inScope {α : Type} (inner : Run α) : Run α := fun world =>
  inner.bind (fun value after => .done value
    { after with scopes := after.scopes.drop (after.scopes.length - world.scopes.length) }) world

/-- A computation with variables of its own. -/
def inFrame {α : Type} (scopes : Scopes) (inner : Run α) : Run α := fun world =>
  inner.bind (fun value after => .done value { after with scopes := world.scopes })
    { world with scopes }

def declare (name : String) (slot : Variable) : Run PUnit := fun world =>
  .done ⟨⟩ { world with scopes := (name, slot) :: world.scopes }

def print (newline : Bool) (value : Value) : Run PUnit := fun world =>
  .done ⟨⟩ { world with output := world.output ++ [⟨newline, value.type, value.bits⟩] }

/-- The value as a place of the type takes it, which must make it a value of the type. -/
def fit (target : DataType) (value : Value) : Run Value :=
  if (value.coerce target).type = target then pure (value.coerce target) else fail .wrongType

end Run

/-- What the statements of a tree refer to. -/
structure Code where
  functions : List Declared
  /-- the names at top level that some function uses -/
  shared : List TopLevel
  /-- where a string literal stands -/
  address : String → Word

namespace Code

def function? (code : Code) (name : String) : Option Declared :=
  code.functions.find? fun function => function.name == name

def shared? (code : Code) (name : String) : Option TopLevel :=
  code.shared.find? fun declaration => declaration.name == name

/-- The function uses the name. -/
def uses (function : Declared) (name : String) : Bool :=
  (Stmt.namesOfList function.body).contains name

/-- What a tree declares. -/
def ofTree (address : String → Word) (tree : Tree) : Code where
  functions := Declared.all tree
  shared := (tree.entry.filterMap TopLevel.ofStmt?).filter fun declaration =>
    (Declared.all tree).any fun function => uses function declaration.name
  address

/-- The index lies in an array of the size. -/
def inRange (size : Nat) (index : Word) : Bool :=
  decide (0 ≤ index.toInt ∧ index.toInt < size)

/-- The variable of a name; what is not in a scope may be shared. -/
def read (code : Code) (name : String) : Run Value := fun world =>
  match world.scopes.lookup name with
  | some (.scalar value) => .done value world
  | some (.array _ _ _) => .fault (.arrayAsScalar name)
  | none =>
    match code.shared? name with
    | some ⟨_, type, none⟩ => .done ⟨type, world.globals.scalars name⟩ world
    | some ⟨_, _, some _⟩ => .fault (.arrayAsScalar name)
    | none => .fault (.undeclared name)

/-- Put a value into the memory of the whole program. -/
def setShared (name : String) (bits : Word) : Run PUnit := fun world =>
  .done ⟨⟩ { world with globals := { world.globals with
    scalars := fun other => if other = name then bits else world.globals.scalars other } }

/-- Put a value into an array of the whole program. -/
def setSharedElement (array : String) (index bits : Word) : Run PUnit := fun world =>
  .done ⟨⟩ { world with globals := { world.globals with
    arrays := fun other position =>
      if other = array ∧ position = index then bits else world.globals.arrays other position } }

def write (code : Code) (name : String) (value : Value) : Run PUnit := fun world =>
  match world.scopes.lookup name with
  | some (.scalar old) =>
    Run.bind (Run.fit old.type value) (fun value world =>
      .done ⟨⟩ { world with scopes := world.scopes.update name (.scalar value) }) world
  | some (.array _ _ _) => .fault (.arrayAsScalar name)
  | none =>
    match code.shared? name with
    | some ⟨_, type, none⟩ =>
      Run.bind (Run.fit type value) (fun value => setShared name value.bits) world
    | some ⟨_, _, some _⟩ => .fault (.arrayAsScalar name)
    | none => .fault (.undeclared name)

def readElement (code : Code) (array : String) (index : Value) : Run Value := fun world =>
  if index.type.isFloat then .fault (.outOfRange array)
  else
    match world.scopes.lookup array with
    | some (.scalar _) => .fault (.scalarAsArray array)
    | some (.array type size contents) =>
      if inRange size index.bits then
        match contents index.bits with
        | some bits => .done ⟨type, bits⟩ world
        | none => .fault (.unwritten array)
      else .fault (.outOfRange array)
    | none =>
      match code.shared? array with
      | some ⟨_, type, some size⟩ =>
        if inRange size index.bits then
          .done ⟨type, world.globals.arrays array index.bits⟩ world
        else .fault (.outOfRange array)
      | some ⟨_, _, none⟩ => .fault (.scalarAsArray array)
      | none => .fault (.undeclared array)

def writeElement (code : Code) (array : String) (index value : Value) : Run PUnit := fun world =>
  if index.type.isFloat then .fault (.outOfRange array)
  else
    match world.scopes.lookup array with
    | some (.scalar _) => .fault (.scalarAsArray array)
    | some (.array type size contents) =>
      if inRange size index.bits then
        Run.bind (Run.fit type value) (fun value world =>
          .done ⟨⟩ { world with scopes := world.scopes.update array (.array type size fun position =>
            if position = index.bits then some value.bits else contents position) }) world
      else .fault (.outOfRange array)
    | none =>
      match code.shared? array with
      | some ⟨_, type, some size⟩ =>
        if inRange size index.bits then
          Run.bind (Run.fit type value)
            (fun value => setSharedElement array index.bits value.bits) world
        else .fault (.outOfRange array)
      | some ⟨_, _, none⟩ => .fault (.scalarAsArray array)
      | none => .fault (.undeclared array)

end Code

end ArmBackend.Source
