import ArmBackend.Binary64
import ArmBackend.DataType
import ArmBackend.Position
import ArmBackend.Tree.Operator

/-!
# Expressions

An expression of the source program; every node knows its place.
-/

namespace ArmBackend

inductive Expr where
  | int (position : Position) (value : Word)
  | float (position : Position) (value : Binary64)
  | bool (position : Position) (value : Bool)
  | str (position : Position) (value : String)
  | name (position : Position) (name : String)
  | binary (position : Position) (op : BinaryOp) (left right : Expr)
  | unary (position : Position) (op : UnaryOp) (operand : Expr)
  | call (position : Position) (callee : String) (arguments : List Expr)
  | index (position : Position) (array : String) (index : Expr)
  | cast (position : Position) (target : DataType) (operand : Expr)

namespace Expr

def position : Expr → Position
  | int position _ => position
  | float position _ => position
  | bool position _ => position
  | str position _ => position
  | name position _ => position
  | binary position _ _ _ => position
  | unary position _ _ => position
  | call position _ _ => position
  | index position _ _ => position
  | cast position _ _ => position

def moveTo (position : Position) : Expr → Expr
  | int _ value => int position value
  | float _ value => float position value
  | bool _ value => bool position value
  | str _ value => str position value
  | name _ text => name position text
  | binary _ op left right => binary position op left right
  | unary _ op operand => unary position op operand
  | call _ callee arguments => call position callee arguments
  | index _ array element => index position array element
  | cast _ target operand => cast position target operand

mutual

/-- The variables and arrays that an expression uses, from left to right. -/
def names : Expr → List String
  | int _ _ => []
  | float _ _ => []
  | bool _ _ => []
  | str _ _ => []
  | name _ text => [text]
  | binary _ _ left right => left.names ++ right.names
  | unary _ _ operand => operand.names
  | call _ _ arguments => namesOfList arguments
  | index _ array element => array :: element.names
  | cast _ _ operand => operand.names

def namesOfList : List Expr → List String
  | [] => []
  | expr :: rest => expr.names ++ namesOfList rest

end

end Expr

end ArmBackend
