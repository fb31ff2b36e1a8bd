import ArmBackend.Proofs.Source.Typing

/-!
# Calls and literals of trees

The calls of expressions and statements in the order in which they are made, with the types
of the arguments under the bindings that are in force there, and their string literals in the
order of the code.
-/

namespace ArmBackend

open Ir (Place Bindings)

namespace Expr

variable (place : Place) (bindings : Bindings)

mutual

/-- The calls of an expression in the order in which they are made, with the argument types. -/
def calls : Expr → List (String × List DataType)
  | int _ _ | float _ _ | bool _ _ | str _ _ | name _ _ => []
  | binary _ _ left right => left.calls ++ right.calls
  | unary _ _ operand => operand.calls
  | call _ callee arguments =>
    callsInList arguments ++ [(callee, arguments.map (type place bindings))]
  | index _ _ element => element.calls
  | cast _ _ operand => operand.calls

def callsInList : List Expr → List (String × List DataType)
  | [] => []
  | expr :: rest => expr.calls ++ callsInList rest

end

/-- The calls of an expression that may be missing. -/
def callsInOption : Option Expr → List (String × List DataType)
  | none => []
  | some expr => expr.calls place bindings

mutual

/-- The string literals of an expression in the order of its code. -/
def literals : Expr → List String
  | str _ value => [value]
  | int _ _ | float _ _ | bool _ _ | name _ _ => []
  | binary _ _ left right => left.literals ++ right.literals
  | unary _ _ operand | index _ _ operand | cast _ _ operand => operand.literals
  | call _ _ arguments => literalsInList arguments

def literalsInList : List Expr → List String
  | [] => []
  | expr :: rest => expr.literals ++ literalsInList rest

end

/-- The literals of an expression that may be missing. -/
def literalsInOption : Option Expr → List String
  | none => []
  | some expr => expr.literals

end Expr

namespace Stmt

section

variable (place : Place)

mutual

/-- The calls of a statement in the order of its code. -/
def calls (bindings : Bindings) : Stmt → List (String × List DataType)
  | varDecl _ _ _ initial => Expr.callsInOption place bindings initial
  | arrayDecl _ name type _ elements =>
    Expr.callsInList place ((name, .array name type) :: bindings) elements
  | indexAssign _ _ index value => index.calls place bindings ++ value.calls place bindings
  | ifElse _ condition thenBranch elseBranch =>
    condition.calls place bindings ++ (callsInList bindings thenBranch ++
      match elseBranch with
      | none => []
      | some body => callsInList (bindList bindings thenBranch) body)
  | whileLoop _ condition body => condition.calls place bindings ++ callsInList bindings body
  | forLoop _ start condition update body =>
    callsInOption bindings start ++
      (Expr.callsInOption place (bindOption bindings start) condition ++
        (callsInList (bindOption bindings start) body ++
          callsInOption (bindList (bindOption bindings start) body) update))
  | block _ body => callsInList bindings body
  | ret _ value => Expr.callsInOption place bindings value
  | assign _ _ value | print _ value | println _ value | expr _ value => value.calls place bindings
  | functionDecl _ _ _ _ _ | breakLoop _ | continueLoop _ => []

def callsInList (bindings : Bindings) : List Stmt → List (String × List DataType)
  | [] => []
  | stmt :: rest => stmt.calls bindings ++ callsInList (stmt.bind bindings) rest

/-- The calls of a statement that may be missing. -/
def callsInOption (bindings : Bindings) : Option Stmt → List (String × List DataType)
  | none => []
  | some stmt => stmt.calls bindings

end

/-- The calls of the first values in a declaration. -/
def initialCalls (bindings : Bindings) : Stmt → List (String × List DataType)
  | varDecl _ _ _ initial => Expr.callsInOption place bindings initial
  | arrayDecl _ _ _ _ elements => Expr.callsInList place bindings elements
  | _ => []

/-- The calls of the statements at top level. -/
def entryCalls (bindings : Bindings) : List Stmt → List (String × List DataType)
  | [] => []
  | stmt :: rest =>
    (if stmt.declaresGlobal place then stmt.initialCalls place bindings
      else stmt.calls place bindings) ++ entryCalls (stmt.entryBind place bindings) rest

end

mutual

/-- The string literals of a statement in the order of its code. -/
def literals : Stmt → List String
  | varDecl _ _ _ initial => Expr.literalsInOption initial
  | arrayDecl _ _ _ _ elements => Expr.literalsInList elements
  | indexAssign _ _ index value => index.literals ++ value.literals
  | ifElse _ condition thenBranch elseBranch =>
    condition.literals ++ (literalsInList thenBranch ++
      match elseBranch with
      | none => []
      | some body => literalsInList body)
  | whileLoop _ condition body => condition.literals ++ literalsInList body
  | forLoop _ start condition update body =>
    literalsInOption start ++
      (Expr.literalsInOption condition ++ (literalsInList body ++ literalsInOption update))
  | block _ body => literalsInList body
  | ret _ value => Expr.literalsInOption value
  | assign _ _ value | print _ value | println _ value | expr _ value => value.literals
  | functionDecl _ _ _ _ _ | breakLoop _ | continueLoop _ => []

def literalsInList : List Stmt → List String
  | [] => []
  | stmt :: rest => stmt.literals ++ literalsInList rest

/-- The literals of a statement that may be missing. -/
def literalsInOption : Option Stmt → List String
  | none => []
  | some stmt => stmt.literals

end

end Stmt

end ArmBackend
