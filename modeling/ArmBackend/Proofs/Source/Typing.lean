import ArmBackend.Ir.OfTree
import ArmBackend.Proofs.Source.Static

/-!
# Well-typed trees

The types of expressions under the bindings that are in force where they stand, and the
check that values which are stored have the type of their place, once integers that go to
float places are widened.  The check follows the statements in the order of their code, as
bindings add up.
-/

namespace ArmBackend

open List

open Ir (Place Bindings Storage Surroundings Declared TopLevel)

/-- The type of a value of the source type once it has been fitted to the target. -/
def DataType.fittedTo (target source : DataType) : DataType :=
  if target.isFloat && !source.isFloat && !source.isVoid then float else source

namespace Expr

section

variable (place : Place) (bindings : Bindings)

/-- The type of the value of an expression; a call without a result counts as an integer. -/
def type : Expr → DataType
  | int _ _ => .int
  | float _ _ => .float
  | bool _ _ => .bool
  | str _ _ => .str
  | name _ text => (place.resolve bindings text).type
  | binary _ op left right =>
    if op.isLogical || op.isComparison then .bool
    else .arithmetic left.type right.type
  | unary _ .minus operand => operand.type
  | unary _ .not _ => .bool
  | call _ callee _ =>
    if (place.around.resultType callee).isVoid then .int else place.around.resultType callee
  | index _ array _ => (place.resolve bindings array).type
  | cast _ target _ => target

mutual

/-- The operator `!` is applied to no float. -/
def negatesNoFloat : Expr → Bool
  | int _ _ | float _ _ | bool _ _ | str _ _ | name _ _ => true
  | binary _ _ left right => left.negatesNoFloat && right.negatesNoFloat
  | unary _ .minus operand => operand.negatesNoFloat
  | unary _ .not operand => !(operand.type place bindings).isFloat && operand.negatesNoFloat
  | call _ _ arguments => negateNoFloat arguments
  | index _ _ element => element.negatesNoFloat
  | cast _ _ operand => operand.negatesNoFloat

def negateNoFloat : List Expr → Bool
  | [] => true
  | expr :: rest => expr.negatesNoFloat && negateNoFloat rest

end

/-- The value may be stored at a place of the type. -/
def fits (target : DataType) (expr : Expr) : Bool :=
  expr.negatesNoFloat place bindings &&
    decide (target.fittedTo (expr.type place bindings) = target)

end

end Expr

namespace Stmt

/-- What a declaration binds its name to. -/
def binding? : Stmt → Option (String × Storage)
  | varDecl _ name type _ => some (name, .direct (.var name type))
  | arrayDecl _ name type _ _ => some (name, .array name type)
  | _ => none

/-- The bindings behind a statement. -/
def bind (bindings : Bindings) (stmt : Stmt) : Bindings :=
  (stmt.gather fun stmt => stmt.binding?.toList).reverse ++ bindings

def bindList (bindings : Bindings) (stmts : List Stmt) : Bindings :=
  (gatherList (fun stmt => stmt.binding?.toList) stmts).reverse ++ bindings

/-- The bindings behind a statement that may be missing. -/
def bindOption (bindings : Bindings) : Option Stmt → Bindings
  | none => bindings
  | some stmt => stmt.bind bindings

theorem map_fst_binding? (stmt : Stmt) :
    stmt.binding?.toList.map Prod.fst = stmt.declaredName?.toList := by
  cases stmt <;> rfl

theorem names_gather (stmt : Stmt) :
    (stmt.gather fun stmt => stmt.binding?.toList).map Prod.fst = stmt.declares := by
  simp only [declares, gather_eq, map_flatMap, map_fst_binding?]

theorem names_gatherList (stmts : List Stmt) :
    (gatherList (fun stmt => stmt.binding?.toList) stmts).map Prod.fst = declaresInList stmts := by
  simp only [declaresInList, gatherList_eq, map_flatMap, map_fst_binding?]

theorem bindOption_eq (bindings : Bindings) (stmt : Option Stmt) :
    bindOption bindings stmt =
      (gatherOption (fun stmt => stmt.binding?.toList) stmt).reverse ++ bindings := by
  cases stmt <;> rfl

section

variable (place : Place) (arrays : List String)

mutual

/--
Stored values have the types of their places.  The names of `arrays` are those that are
declared as arrays; no other name is, and none of them is a variable or assigned as a whole.
-/
def isTyped (bindings : Bindings) : Stmt → Bool
  | varDecl _ name type initial =>
    !arrays.contains name && initial.all (Expr.fits place bindings type)
  | arrayDecl _ name type _ elements =>
    arrays.contains name &&
      elements.all (Expr.fits place ((name, .array name type) :: bindings) type)
  | assign _ name value =>
    !arrays.contains name && value.fits place bindings (place.resolve bindings name).type
  | indexAssign _ array index value =>
    index.negatesNoFloat place bindings &&
      value.fits place bindings (place.resolve bindings array).type
  | ifElse _ condition thenBranch elseBranch =>
    condition.negatesNoFloat place bindings && areTyped bindings thenBranch &&
      match elseBranch with
      | none => true
      | some body => areTyped (bindList bindings thenBranch) body
  | whileLoop _ condition body =>
    condition.negatesNoFloat place bindings && areTyped bindings body
  | forLoop _ start condition update body =>
    optionIsTyped bindings start &&
      condition.all (Expr.negatesNoFloat place (bindOption bindings start)) &&
      areTyped (bindOption bindings start) body &&
      optionIsTyped (bindList (bindOption bindings start) body) update
  | block _ body => areTyped bindings body
  | ret _ value => value.all (Expr.negatesNoFloat place bindings)
  | print _ value | println _ value | expr _ value => value.negatesNoFloat place bindings
  | functionDecl _ _ _ _ _ | breakLoop _ | continueLoop _ => true

def areTyped (bindings : Bindings) : List Stmt → Bool
  | [] => true
  | stmt :: rest => stmt.isTyped bindings && areTyped (stmt.bind bindings) rest

/-- A statement that may be missing. -/
def optionIsTyped (bindings : Bindings) : Option Stmt → Bool
  | none => true
  | some stmt => stmt.isTyped bindings

end

/-- The first values in a declaration fit. -/
def initialFits (bindings : Bindings) : Stmt → Bool
  | varDecl _ _ type initial => initial.all (Expr.fits place bindings type)
  | arrayDecl _ _ type _ elements => elements.all (Expr.fits place bindings type)
  | _ => true

/-- A declaration of a global. -/
def declaresGlobal (stmt : Stmt) : Bool :=
  stmt.declaredName?.any fun name => (place.around.global? name).isSome

/-- The bindings behind a statement at top level; the declaration of a global binds nothing. -/
def entryBind (bindings : Bindings) (stmt : Stmt) : Bindings :=
  if stmt.declaresGlobal place then bindings else stmt.bind bindings

/-- The statements at top level. -/
def entryIsTyped (bindings : Bindings) : List Stmt → Bool
  | [] => true
  | stmt :: rest =>
    (if stmt.declaresGlobal place then stmt.initialFits place bindings
      else stmt.isTyped place arrays bindings) &&
      entryIsTyped (stmt.entryBind place bindings) rest

end

end Stmt

namespace Tree

/-- All declarations of one name at top level, in tree and trace, have one type. -/
def hasUniformGlobals (scopes : ScopeTrace) (tree : Tree) : Bool :=
  (TopLevel.all scopes tree).all fun one => (TopLevel.all scopes tree).all fun other =>
    one.name != other.name || decide (one.type = other.type)

/-- All code of the tree is well typed, for the places where it is lowered. -/
def isTyped (scopes : ScopeTrace) (tree : Tree) : Bool :=
  let around := Surroundings.ofTree scopes tree
  tree.hasUniformGlobals scopes &&
    Stmt.entryIsTyped ⟨around, none, .int⟩ (Stmt.arraysInList tree.entry) [] tree.entry &&
    (Declared.all tree).all fun function =>
      Stmt.areTyped ⟨around, some function.name, function.result⟩ (Stmt.arraysInList function.body)
        (function.parameters.map fun parameter =>
          (parameter.name, Storage.direct (.param parameter.name parameter.type))).reverse
        function.body

end Tree

end ArmBackend
