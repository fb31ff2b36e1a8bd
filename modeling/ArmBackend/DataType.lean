/-!
# Value types

The types of the source language.  They are also the types of operands: every
value fills one slot of a frame, and a void value fills none.
-/

namespace ArmBackend

inductive DataType where
  | int
  | float
  | bool
  | str
  | void
deriving DecidableEq, Inhabited

namespace DataType

def all : List DataType :=
  [int, float, bool, str, void]

def name : DataType → String
  | int => "int"
  | float => "float"
  | bool => "bool"
  | str => "str"
  | void => "void"

def ofName? (text : String) : Option DataType :=
  all.find? fun ty => ty.name == text

def isFloat : DataType → Bool
  | float => true
  | _ => false

def isVoid : DataType → Bool
  | void => true
  | _ => false

/-- The type of a sum, a product and so on: float as soon as one side is. -/
def arithmetic (left right : DataType) : DataType :=
  if left.isFloat || right.isFloat then float else int

def byteSize : DataType → Nat
  | void => 0
  | _ => 8

end DataType

end ArmBackend
