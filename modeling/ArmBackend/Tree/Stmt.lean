import ArmBackend.Tree.Expr

/-!
# Statements

A source program is a list of statements.  Those that declare functions stand
apart; the others are the code of the entry function.
-/

namespace ArmBackend

structure Parameter where
  name : String
  type : DataType
deriving DecidableEq

inductive Stmt where
  | varDecl (position : Position) (name : String) (type : DataType) (initial : Option Expr)
  | arrayDecl (position : Position) (name : String) (element : DataType) (size : Nat)
      (elements : List Expr)
  | assign (position : Position) (name : String) (value : Expr)
  | indexAssign (position : Position) (array : String) (index value : Expr)
  | ifElse (position : Position) (condition : Expr) (thenBranch : List Stmt)
      (elseBranch : Option (List Stmt))
  | whileLoop (position : Position) (condition : Expr) (body : List Stmt)
  | forLoop (position : Position) (start : Option Stmt) (condition : Option Expr)
      (update : Option Stmt) (body : List Stmt)
  | block (position : Position) (body : List Stmt)
  | functionDecl (position : Position) (name : String) (parameters : List Parameter)
      (result : DataType) (body : List Stmt)
  | ret (position : Position) (value : Option Expr)
  | print (position : Position) (value : Expr)
  | println (position : Position) (value : Expr)
  | expr (position : Position) (value : Expr)
  | breakLoop (position : Position)
  | continueLoop (position : Position)

namespace Stmt

def position : Stmt → Position
  | varDecl position _ _ _ => position
  | arrayDecl position _ _ _ _ => position
  | assign position _ _ => position
  | indexAssign position _ _ _ => position
  | ifElse position _ _ _ => position
  | whileLoop position _ _ => position
  | forLoop position _ _ _ _ => position
  | block position _ => position
  | functionDecl position _ _ _ _ => position
  | ret position _ => position
  | print position _ => position
  | println position _ => position
  | expr position _ => position
  | breakLoop position => position
  | continueLoop position => position

def moveTo (position : Position) : Stmt → Stmt
  | varDecl _ name type initial => varDecl position name type initial
  | arrayDecl _ name element size elements => arrayDecl position name element size elements
  | assign _ name value => assign position name value
  | indexAssign _ array index value => indexAssign position array index value
  | ifElse _ condition thenBranch elseBranch => ifElse position condition thenBranch elseBranch
  | whileLoop _ condition body => whileLoop position condition body
  | forLoop _ start condition update body => forLoop position start condition update body
  | block _ body => block position body
  | functionDecl _ name parameters result body => functionDecl position name parameters result body
  | ret _ value => ret position value
  | print _ value => print position value
  | println _ value => println position value
  | expr _ value => expr position value
  | breakLoop _ => breakLoop position
  | continueLoop _ => continueLoop position

def isFunction : Stmt → Bool
  | functionDecl _ _ _ _ _ => true
  | _ => false

def optionalNames : Option Expr → List String
  | none => []
  | some value => value.names

mutual

/--
The variables and arrays that a statement uses, in source order.  A declaration
does not use the name it declares.
-/
def names : Stmt → List String
  | varDecl _ _ _ initial => optionalNames initial
  | arrayDecl _ _ _ _ elements => Expr.namesOfList elements
  | assign _ name value => name :: value.names
  | indexAssign _ array index value => array :: (index.names ++ value.names)
  | ifElse _ condition thenBranch elseBranch =>
    condition.names ++ namesOfList thenBranch ++
      match elseBranch with
      | none => []
      | some body => namesOfList body
  | whileLoop _ condition body => condition.names ++ namesOfList body
  | forLoop _ start condition update body =>
    (match start with
      | none => []
      | some stmt => stmt.names) ++
    optionalNames condition ++
    (match update with
      | none => []
      | some stmt => stmt.names) ++
    namesOfList body
  | block _ body => namesOfList body
  | functionDecl _ _ _ _ body => namesOfList body
  | ret _ value => optionalNames value
  | print _ value => value.names
  | println _ value => value.names
  | expr _ value => value.names
  | breakLoop _ => []
  | continueLoop _ => []

def namesOfList : List Stmt → List String
  | [] => []
  | stmt :: rest => stmt.names ++ namesOfList rest

end

mutual

/-- The variables and arrays declared in a statement, at any depth but not in inner functions. -/
def declared : Stmt → List String
  | varDecl _ name _ _ => [name]
  | arrayDecl _ name _ _ _ => [name]
  | ifElse _ _ thenBranch elseBranch =>
    declaredInList thenBranch ++
      match elseBranch with
      | none => []
      | some body => declaredInList body
  | whileLoop _ _ body => declaredInList body
  | forLoop _ start _ _ body =>
    (match start with
      | none => []
      | some stmt => stmt.declared) ++
    declaredInList body
  | block _ body => declaredInList body
  | _ => []

def declaredInList : List Stmt → List String
  | [] => []
  | stmt :: rest => stmt.declared ++ declaredInList rest

end

end Stmt

/-- A compilation unit: its top-level statements in source order. -/
structure Tree where
  statements : List Stmt := []

namespace Tree

def functions (tree : Tree) : List Stmt :=
  tree.statements.filter Stmt.isFunction

def entry (tree : Tree) : List Stmt :=
  tree.statements.filter fun stmt => !stmt.isFunction

end Tree

end ArmBackend
