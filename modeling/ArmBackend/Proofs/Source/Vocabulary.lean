import ArmBackend.Proofs.Source.Static

/-!
# Words of trees

The names that expressions and statements use, and those that they have elements of.
-/

namespace ArmBackend

open List

namespace Expr

mutual

/-- The names that an expression reads elements of. -/
def indexed : Expr → List String
  | int _ _ | float _ _ | bool _ _ | str _ _ | name _ _ => []
  | binary _ _ left right => left.indexed ++ right.indexed
  | unary _ _ operand => operand.indexed
  | call _ _ arguments => indexedInList arguments
  | index _ array element => array :: element.indexed
  | cast _ _ operand => operand.indexed

def indexedInList : List Expr → List String
  | [] => []
  | expr :: rest => expr.indexed ++ indexedInList rest

end

/-- The same for an expression that may be missing. -/
def indexedInOption : Option Expr → List String
  | none => []
  | some expr => expr.indexed

end Expr

namespace Stmt

mutual

/-- The names that a statement reads or writes elements of; the declaration of an array fills it. -/
def indexed : Stmt → List String
  | varDecl _ _ _ initial => Expr.indexedInOption initial
  | arrayDecl _ name _ _ elements => name :: Expr.indexedInList elements
  | indexAssign _ array index value => array :: (index.indexed ++ value.indexed)
  | ifElse _ condition thenBranch elseBranch =>
    condition.indexed ++ indexedInList thenBranch ++
      match elseBranch with
      | none => []
      | some body => indexedInList body
  | whileLoop _ condition body => condition.indexed ++ indexedInList body
  | forLoop _ start condition update body =>
    indexedInOption start ++ Expr.indexedInOption condition ++ indexedInOption update ++
      indexedInList body
  | block _ body => indexedInList body
  | ret _ value => Expr.indexedInOption value
  | assign _ _ value | print _ value | println _ value | expr _ value => value.indexed
  | functionDecl _ _ _ _ _ | breakLoop _ | continueLoop _ => []

def indexedInList : List Stmt → List String
  | [] => []
  | stmt :: rest => stmt.indexed ++ indexedInList rest

def indexedInOption : Option Stmt → List String
  | none => []
  | some stmt => stmt.indexed

end

/-- The names of a statement that may be missing. -/
def namesInOption : Option Stmt → List String
  | none => []
  | some stmt => stmt.names

theorem names_forLoop (position : Position) (start update : Option Stmt)
    (condition : Option Expr) (body : List Stmt) :
    (forLoop position start condition update body).names =
      namesInOption start ++ optionalNames condition ++ namesInOption update ++
        namesOfList body := by
  cases start <;> cases update <;> rw [names] <;> rfl

end Stmt

/-- Names that may stand in code, and those of them that may have elements there. -/
structure Vocabulary where
  names : List String
  arrays : List String

/-- The words of an expression are known. -/
structure Expr.Within (words : Vocabulary) (expr : Expr) : Prop where
  names : expr.names ⊆ words.names
  arrays : expr.indexed ⊆ words.arrays

/-- The words of a statement are known, with those that it declares. -/
structure Stmt.Within (words : Vocabulary) (stmt : Stmt) : Prop where
  names : stmt.names ⊆ words.names
  declares : stmt.declares ⊆ words.names
  arrays : stmt.indexed ⊆ words.arrays

section

variable {words : Vocabulary}

theorem Expr.within_of_list {exprs : List Expr} (names : Expr.namesOfList exprs ⊆ words.names)
    (arrays : Expr.indexedInList exprs ⊆ words.arrays) : ∀ expr ∈ exprs, expr.Within words := by
  induction exprs with
  | nil =>
    intro expr member
    cases member
  | cons first rest ih =>
    rw [Expr.namesOfList, append_subset] at names
    rw [Expr.indexedInList, append_subset] at arrays
    exact forall_mem_cons.mpr ⟨⟨names.1, arrays.1⟩, ih names.2 arrays.2⟩

theorem Expr.within_of_option {expr : Option Expr}
    (names : Stmt.optionalNames expr ⊆ words.names)
    (arrays : Expr.indexedInOption expr ⊆ words.arrays) : ∀ inner ∈ expr, inner.Within words := by
  rintro inner ⟨⟩
  exact ⟨names, arrays⟩

theorem Stmt.within_of_list {stmts : List Stmt} (names : Stmt.namesOfList stmts ⊆ words.names)
    (declares : Stmt.declaresInList stmts ⊆ words.names)
    (arrays : Stmt.indexedInList stmts ⊆ words.arrays) : ∀ stmt ∈ stmts, stmt.Within words := by
  induction stmts with
  | nil =>
    intro stmt member
    cases member
  | cons first rest ih =>
    rw [Stmt.namesOfList, append_subset] at names
    rw [Stmt.declaresInList, Stmt.gatherList, append_subset] at declares
    rw [Stmt.indexedInList, append_subset] at arrays
    exact forall_mem_cons.mpr
      ⟨⟨names.1, declares.1, arrays.1⟩, ih names.2 declares.2 arrays.2⟩

namespace Stmt.Within

variable {position : Position} {condition : Expr} {body : List Stmt}

theorem ifElse {thenBranch : List Stmt} {elseBranch : Option (List Stmt)}
    (within : (Stmt.ifElse position condition thenBranch elseBranch).Within words) :
    condition.Within words ∧ (∀ stmt ∈ thenBranch, stmt.Within words) ∧
      ∀ body ∈ elseBranch, ∀ stmt ∈ body, stmt.Within words := by
  obtain ⟨names, declares, arrays⟩ := within
  cases elseBranch with
  | none =>
    rw [Stmt.names, append_nil, append_subset] at names
    rw [Stmt.declares, gather, append_nil] at declares
    rw [Stmt.indexed, append_nil, append_subset] at arrays
    refine ⟨⟨names.1, arrays.1⟩, within_of_list names.2 declares arrays.2, ?_⟩
    intro body given
    cases given
  | some body =>
    rw [Stmt.names, append_subset, append_subset] at names
    rw [Stmt.declares, gather, append_subset] at declares
    rw [Stmt.indexed, append_subset, append_subset] at arrays
    refine ⟨⟨names.1.1, arrays.1.1⟩, within_of_list names.1.2 declares.1 arrays.1.2, ?_⟩
    rintro _ ⟨⟩
    exact within_of_list names.2 declares.2 arrays.2

theorem whileLoop (within : (Stmt.whileLoop position condition body).Within words) :
    condition.Within words ∧ ∀ stmt ∈ body, stmt.Within words := by
  obtain ⟨names, declares, arrays⟩ := within
  rw [Stmt.names, append_subset] at names
  rw [Stmt.declares, gather] at declares
  rw [Stmt.indexed, append_subset] at arrays
  exact ⟨⟨names.1, arrays.1⟩, within_of_list names.2 declares arrays.2⟩

theorem forLoop {start update : Option Stmt} {condition : Option Expr}
    (within : (Stmt.forLoop position start condition update body).Within words) :
    (∀ stmt ∈ start, stmt.Within words) ∧ (∀ expr ∈ condition, expr.Within words) ∧
      (∀ stmt ∈ update, stmt.Within words) ∧ ∀ stmt ∈ body, stmt.Within words := by
  obtain ⟨names, declares, arrays⟩ := within
  rw [names_forLoop, append_subset, append_subset, append_subset] at names
  rw [Stmt.declares, gather, append_subset, append_subset] at declares
  rw [Stmt.indexed, append_subset, append_subset, append_subset] at arrays
  refine ⟨?_, Expr.within_of_option names.1.1.2 arrays.1.1.2, ?_,
    within_of_list names.2 declares.2.1 arrays.2⟩
  · rintro stmt ⟨⟩
    exact ⟨names.1.1.1, declares.1, arrays.1.1.1⟩
  · rintro stmt ⟨⟩
    exact ⟨names.1.2, declares.2.2, arrays.1.2⟩

theorem block (within : (Stmt.block position body).Within words) :
    ∀ stmt ∈ body, stmt.Within words := by
  obtain ⟨names, declares, arrays⟩ := within
  rw [Stmt.names] at names
  rw [Stmt.declares, gather] at declares
  rw [Stmt.indexed] at arrays
  exact within_of_list names declares arrays

end Stmt.Within

end

end ArmBackend
