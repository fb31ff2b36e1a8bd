/-!
# Operators

The operators of source expressions, with the names that documents give them and
the symbols that programmers write.
-/

namespace ArmBackend

inductive BinaryOp where
  | add
  | sub
  | mul
  | div
  | mod
  | and
  | or
  | equal
  | notEqual
  | less
  | greater
  | lessEqual
  | greaterEqual
deriving DecidableEq

inductive UnaryOp where
  | minus
  | not
deriving DecidableEq

namespace BinaryOp

def all : List BinaryOp :=
  [.add, .sub, .mul, .div, .mod, .and, .or, .equal, .notEqual, .less, .greater, .lessEqual,
    .greaterEqual]

def name : BinaryOp → String
  | .add => "Add"
  | .sub => "Sub"
  | .mul => "Mul"
  | .div => "Div"
  | .mod => "Mod"
  | .and => "LogicalAnd"
  | .or => "LogicalOr"
  | .equal => "Equal"
  | .notEqual => "NotEqual"
  | .less => "Less"
  | .greater => "Greater"
  | .lessEqual => "LessEqual"
  | .greaterEqual => "GreaterEqual"

def ofName? (text : String) : Option BinaryOp :=
  all.find? fun op => op.name == text

def symbol : BinaryOp → String
  | .add => "+"
  | .sub => "-"
  | .mul => "*"
  | .div => "/"
  | .mod => "%"
  | .and => "&&"
  | .or => "||"
  | .equal => "=="
  | .notEqual => "!="
  | .less => "<"
  | .greater => ">"
  | .lessEqual => "<="
  | .greaterEqual => ">="

def isComparison : BinaryOp → Bool
  | .equal | .notEqual | .less | .greater | .lessEqual | .greaterEqual => true
  | _ => false

def isLogical : BinaryOp → Bool
  | .and | .or => true
  | _ => false

end BinaryOp

namespace UnaryOp

def all : List UnaryOp :=
  [.minus, .not]

def name : UnaryOp → String
  | .minus => "Minus"
  | .not => "LogicalNot"

def ofName? (text : String) : Option UnaryOp :=
  all.find? fun op => op.name == text

def symbol : UnaryOp → String
  | .minus => "-"
  | .not => "!"

end UnaryOp

end ArmBackend
