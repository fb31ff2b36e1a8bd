import ArmBackend.Ir.Program

/-!
# Values of operands

What three-address code computes with: every place holds a word, an array holds a
word for each index, and the operations work on words.  The type of an operand
decides whether a word is read as an integer or as a float.
-/

namespace ArmBackend.Ir

/-- The float operations, on the patterns that places hold. -/
structure FloatUnit where
  add : Word → Word → Word
  sub : Word → Word → Word
  mul : Word → Word → Word
  div : Word → Word → Word
  rem : Word → Word → Word
  neg : Word → Word
  /-- the truth of a comparison -/
  compare : Opcode → Word → Word → Bool
  ofInt : Word → Word
  toInt : Word → Word

/-- The operations on double-precision numbers. -/
def FloatUnit.binary64 : FloatUnit where
  add left right := (Binary64.add ⟨left⟩ ⟨right⟩).bits
  sub left right := (Binary64.sub ⟨left⟩ ⟨right⟩).bits
  mul left right := (Binary64.mul ⟨left⟩ ⟨right⟩).bits
  div left right := (Binary64.div ⟨left⟩ ⟨right⟩).bits
  rem left right := (Binary64.rem ⟨left⟩ ⟨right⟩).bits
  neg value := (Binary64.neg ⟨value⟩).bits
  compare opcode left right :=
    match opcode with
    | .eq => Binary64.equal ⟨left⟩ ⟨right⟩
    | .ne => !Binary64.equal ⟨left⟩ ⟨right⟩
    | .lt => Binary64.less ⟨left⟩ ⟨right⟩
    | .le => Binary64.lessEqual ⟨left⟩ ⟨right⟩
    | .gt => Binary64.less ⟨right⟩ ⟨left⟩
    | .ge => Binary64.lessEqual ⟨right⟩ ⟨left⟩
    | _ => false
  ofInt value := (Binary64.ofWord value).bits
  toInt value := Binary64.toWord ⟨value⟩

namespace Opcode

/--
The operation on two integers.  They wrap around; a division by zero gives zero and
the remainder is then the dividend.
-/
def onInts (left right : Word) : Opcode → Word
  | .add => left + right
  | .sub => left - right
  | .mul => left * right
  | .div => left.sdiv right
  | .mod => left.srem right
  | .and => left &&& right
  | .or => left ||| right
  | .eq => .ofBool (left == right)
  | .ne => .ofBool (left != right)
  | .lt => .ofBool (left.slt right)
  | .le => .ofBool (left.sle right)
  | .gt => .ofBool (right.slt left)
  | .ge => .ofBool (right.sle left)
  | _ => 0

/-- The operation on two floats; the logical operations work on the patterns. -/
def onFloats (floats : FloatUnit) (left right : Word) : Opcode → Word
  | .add => floats.add left right
  | .sub => floats.sub left right
  | .mul => floats.mul left right
  | .div => floats.div left right
  | .mod => floats.rem left right
  | .and => left &&& right
  | .or => left ||| right
  | opcode => .ofBool (floats.compare opcode left right)

/-- The operation with two sources, on floats or on integers. -/
def onTwo (floats : FloatUnit) (isFloat : Bool) (opcode : Opcode) (left right : Word) : Word :=
  if isFloat then opcode.onFloats floats left right else opcode.onInts left right

/-- The operation with one source. -/
def onOne (floats : FloatUnit) (isFloat : Bool) (opcode : Opcode) (value : Word) : Word :=
  match opcode with
  | .neg => if isFloat then floats.neg value else -value
  | .not => .ofBool (value == 0)
  | .intToFloat => floats.ofInt value
  | .floatToInt => floats.toInt value
  | _ => value

end Opcode

/-- The word that a literal of a type stands for. -/
def Immediate.word (value : Immediate) (type : DataType) : Word :=
  if type.isFloat then value.toReal.bits else value.toWord

/-- What one activation of a function has for itself. -/
structure Locals where
  places : Location → Word
  arrays : String → Word → Word
  /-- the arguments that wait for the next call, with their positions -/
  pending : List (Nat × Word) := []
  /-- the words that were pushed, the last one first -/
  stack : List Word := []

/-- The variables and arrays of the whole program. -/
structure Globals where
  scalars : String → Word
  arrays : String → Word → Word

/-- Globals start out as zeros. -/
def Globals.zero : Globals where
  scalars _ := 0
  arrays _ _ := 0

/-- All that the code of an activation can read and write. -/
structure State where
  locals : Locals
  globals : Globals

namespace State

/-- The word at a place. -/
def get (state : State) : Location → Word
  | .global name => state.globals.scalars name
  | place => state.locals.places place

/-- Put a word at a place. -/
def set (state : State) (place : Location) (value : Word) : State :=
  match place with
  | .global name =>
    { state with globals := { state.globals with
        scalars := fun other => if other = name then value else state.globals.scalars other } }
  | place =>
    { state with locals := { state.locals with
        places := fun other => if other = place then value else state.locals.places other } }

/-- The word in an array of the activation, or else of the program. -/
def element (state : State) (own : Bool) (array : String) (index : Word) : Word :=
  if own then state.locals.arrays array index else state.globals.arrays array index

/-- Put a word into an array. -/
def setElement (state : State) (own : Bool) (array : String) (index value : Word) : State :=
  let change (arrays : String → Word → Word) : String → Word → Word :=
    fun name position => if name = array ∧ position = index then value else arrays name position
  if own then { state with locals := { state.locals with arrays := change state.locals.arrays } }
  else { state with globals := { state.globals with arrays := change state.globals.arrays } }

variable (state : State)

@[simp]
theorem get_set_self (place : Location) (value : Word) :
    (state.set place value).get place = value := by
  cases place <;> simp [get, set]

theorem get_set_ne {place other : Location} (value : Word) (differ : other ≠ place) :
    (state.set place value).get other = state.get other := by
  cases place <;> cases other <;> simp_all [get, set]

theorem get_set (place other : Location) (value : Word) :
    (state.set place value).get other = if other = place then value else state.get other := by
  by_cases same : other = place
  · subst same
    rw [get_set_self, if_pos rfl]
  · rw [get_set_ne state value same, if_neg same]

@[simp]
theorem arrays_set (place : Location) (value : Word) :
    (state.set place value).locals.arrays = state.locals.arrays := by
  cases place <;> rfl

@[simp]
theorem pending_set (place : Location) (value : Word) :
    (state.set place value).locals.pending = state.locals.pending := by
  cases place <;> rfl

@[simp]
theorem get_setElement (own : Bool) (array : String) (index value : Word) (place : Location) :
    (state.setElement own array index value).get place = state.get place := by
  cases own <;> cases place <;> rfl

end State

/-- What a program finds around it: float operations and the addresses of labels. -/
structure Setting where
  floats : FloatUnit
  label : String → Word

namespace Operand

/--
The value of an operand.  The index of an element is a signed word; a float is no
index, and there is nothing to find there.
-/
def value (setting : Setting) (owns : String → Bool) (state : State) : Operand → Word
  | temp name _ => state.get (.temp name)
  | var name _ => state.get (.var name)
  | param name _ => state.get (.param name)
  | global name _ => state.get (.global name)
  | label name _ => setting.label name
  | immediate value type => value.word type
  | element array index _ =>
    if index.type.isFloat then 0
    else state.element (owns array) array (index.value setting owns state)

/-- The arrays of the elements in an operand. -/
def arrays : Operand → List String
  | element array index _ => array :: index.arrays
  | _ => []

theorem value_of_location? {operand : Operand} {place : Location}
    (named : operand.location? = some place) (setting : Setting) (owns : String → Bool)
    (state : State) : operand.value setting owns state = state.get place := by
  cases operand <;> cases named <;> rfl

end Operand

end ArmBackend.Ir
