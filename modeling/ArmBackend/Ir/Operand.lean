import ArmBackend.DataType
import ArmBackend.Decimal.Numeral

/-!
# Operands

An operand of a three-address instruction is a literal, a label, a named place
or an element of an array, together with the type of the value it denotes.
-/

namespace ArmBackend.Ir

inductive Immediate where
  | int (value : Word)
  | float (value : Binary64)
deriving DecidableEq

namespace Immediate

/-- Literals have shortest digits; from `0.0001` up to below `1e16` they have no exponent. -/
def realLayout : DecimalLayout where
  plainFrom := -4
  plainBelow := 16
  tie := .upper

def realText (value : Binary64) : String :=
  if value.isNaN then "NaN"
  else if value.isInfinite then if value.negative then "-inf" else "inf"
  else String.ofList ((realLayout.numeral value).text false)

def text : Immediate → String
  | int value => value.signedText
  | float value => realText value

/-- The literal as a signed word; a float loses its fraction. -/
def toWord : Immediate → Word
  | int value => value
  | float value => value.toWord

/-- The literal as a float; an integer is rounded. -/
def toReal : Immediate → Binary64
  | int value => .ofWord value
  | float value => value

def isZero : Immediate → Bool
  | int value => value == 0
  | float value => value.isZero

def isFloat : Immediate → Bool
  | int _ => false
  | float _ => true

/-- The register contents that hold the literal. -/
def bits : Immediate → Word
  | int value => value
  | float value => value.bits

end Immediate

/--
A named place that holds a value.  Two operands share a place exactly when their
locations are equal; a temporary and a variable of one spelling do not.
-/
inductive Location where
  | temp (name : String)
  | var (name : String)
  | param (name : String)
  | global (name : String)
deriving DecidableEq

namespace Location

def name : Location → String
  | temp name => name
  | var name => name
  | param name => name
  | global name => name

def isGlobal : Location → Bool
  | global _ => true
  | _ => false

def text : Location → String
  | temp name => name
  | var name => name
  | param name => "%" ++ name
  | global name => "@" ++ name

/-- Temporaries come first, then variables, parameters and globals. -/
def group : Location → Nat
  | temp _ => 0
  | var _ => 1
  | param _ => 2
  | global _ => 3

/-- The order of listings: by group, then by name. -/
def before (left right : Location) : Bool :=
  decide (left.group < right.group) ||
    (left.group == right.group && decide (left.name ≤ right.name))

end Location

inductive Operand where
  | temp (name : String) (type : DataType)
  | var (name : String) (type : DataType)
  | param (name : String) (type : DataType)
  | global (name : String) (type : DataType)
  | label (name : String) (type : DataType)
  | immediate (value : Immediate) (type : DataType)
  | element (array : String) (index : Operand) (type : DataType)
deriving DecidableEq

namespace Operand

def type : Operand → DataType
  | temp _ type => type
  | var _ type => type
  | param _ type => type
  | global _ type => type
  | label _ type => type
  | immediate _ type => type
  | element _ _ type => type

def int (value : Word) : Operand :=
  immediate (.int value) .int

def nat (value : Nat) : Operand :=
  int (BitVec.ofNat 64 value)

def float (value : Binary64) : Operand :=
  immediate (.float value) .float

def bool (value : Bool) : Operand :=
  immediate (.int (Word.ofBool value)) .bool

/-- What a variable of the type holds before it is assigned. -/
def zero (type : DataType) : Operand :=
  match type with
  | .float => float .zero
  | other => immediate (.int 0) other

def stringLabel (id : Nat) : String :=
  ".str" ++ toString id

def stringRef (id : Nat) : Operand :=
  label (stringLabel id) .str

def immediate? : Operand → Option Immediate
  | immediate value _ => some value
  | _ => none

def isImmediate (operand : Operand) : Bool :=
  operand.immediate?.isSome

def isTemp : Operand → Bool
  | temp _ _ => true
  | _ => false

def label? : Operand → Option String
  | label name _ => some name
  | _ => none

/-- The place that the operand names directly. -/
def location? : Operand → Option Location
  | temp name _ => some (.temp name)
  | var name _ => some (.var name)
  | param name _ => some (.param name)
  | global name _ => some (.global name)
  | _ => none

/-- The places read for the value; an element reads its array, as a variable, and its index. -/
def reads : Operand → List Location
  | element array index _ => .var array :: index.reads
  | operand => operand.location?.toList

def temps : Operand → List String
  | temp name _ => [name]
  | element _ index _ => index.temps
  | _ => []

/-- Put `replacement` where the operand, or the index inside it, names the place. -/
def rename (place : Location) (replacement : Operand) : Operand → Operand
  | element array index type => element array (rename place replacement index) type
  | operand => if operand.location? = some place then replacement else operand

/-- The place is named by the operand or by the index inside it. -/
def mentions (place : Location) : Operand → Bool
  | element _ index _ => mentions place index
  | operand => decide (operand.location? = some place)

def text : Operand → String
  | temp name _ => name
  | var name _ => name
  | param name _ => "%" ++ name
  | global name _ => "@" ++ name
  | label name _ => name
  | immediate value _ => "#" ++ value.text
  | element array index _ => array ++ "[" ++ index.text ++ "]"

end Operand

end ArmBackend.Ir
