import ArmBackend.Tree.Stmt

/-!
# Names and jumps of statements

What can be read off statements without running them: the names they declare at any
depth, those that are arrays, those that are assigned as a whole, and whether the
jumps out of loops stand in loops.
-/

namespace ArmBackend.Stmt

open List

mutual

/-- What simple statements have, gathered in the order in which their code comes. -/
def gather {α : Type} (own : Stmt → List α) : Stmt → List α
  | ifElse _ _ thenBranch elseBranch =>
    gatherList own thenBranch ++
      match elseBranch with
      | none => []
      | some body => gatherList own body
  | whileLoop _ _ body => gatherList own body
  | forLoop _ start _ update body =>
    gatherOption own start ++ (gatherList own body ++ gatherOption own update)
  | block _ body => gatherList own body
  | stmt => own stmt

def gatherList {α : Type} (own : Stmt → List α) : List Stmt → List α
  | [] => []
  | stmt :: rest => gather own stmt ++ gatherList own rest

/-- The same for a statement that may be missing. -/
def gatherOption {α : Type} (own : Stmt → List α) : Option Stmt → List α
  | none => []
  | some stmt => gather own stmt

end

/-- The simple statements in a statement, in the order in which their code comes. -/
def simples : Stmt → List Stmt :=
  gather fun stmt => [stmt]

def simplesInList : List Stmt → List Stmt :=
  gatherList fun stmt => [stmt]

mutual

theorem gather_eq {α : Type} (own : Stmt → List α) : (stmt : Stmt) →
    stmt.gather own = stmt.simples.flatMap own
  | ifElse _ _ thenBranch none => by
    simp only [simples, gather, append_nil, gatherList_eq own thenBranch, simplesInList]
  | ifElse _ _ thenBranch (some elseBranch) => by
    simp only [simples, gather, gatherList_eq own thenBranch, gatherList_eq own elseBranch,
      simplesInList, flatMap_append]
  | whileLoop _ _ body | block _ body => by
    simp only [simples, gather, gatherList_eq own body, simplesInList]
  | forLoop _ start _ update body => by
    have one := gatherOption_eq own start
    have two := gatherOption_eq own update
    simp only [simples, gather, one, two, gatherList_eq own body, simplesInList,
      flatMap_append]
  | varDecl .. | arrayDecl .. | assign .. | indexAssign .. | functionDecl .. | ret .. | print ..
  | println .. | expr .. | breakLoop .. | continueLoop .. => (flatMap_singleton ..).symm

theorem gatherOption_eq {α : Type} (own : Stmt → List α) : (stmt : Option Stmt) →
    gatherOption own stmt = (gatherOption (fun stmt => [stmt]) stmt).flatMap own
  | none => rfl
  | some stmt => gather_eq own stmt

theorem gatherList_eq {α : Type} (own : Stmt → List α) : (stmts : List Stmt) →
    gatherList own stmts = (simplesInList stmts).flatMap own
  | [] => rfl
  | stmt :: rest => by
    simp only [simplesInList, gatherList, gather_eq own stmt, gatherList_eq own rest,
      flatMap_append, simples]

end

/-- The name that a declaration declares. -/
def declaredName? : Stmt → Option String
  | varDecl _ name _ _ => some name
  | arrayDecl _ name _ _ _ => some name
  | _ => none

/-- The name that a declaration declares as an array. -/
def arrayName? : Stmt → Option String
  | arrayDecl _ name _ _ _ => some name
  | _ => none

/-- The name that an assignment assigns as a whole. -/
def assignedName? : Stmt → Option String
  | assign _ name _ => some name
  | _ => none

/-- All names that a statement declares, also in the update of a loop. -/
def declares : Stmt → List String :=
  gather fun stmt => stmt.declaredName?.toList

def declaresInList : List Stmt → List String :=
  gatherList fun stmt => stmt.declaredName?.toList

/-- The names that a statement declares as arrays. -/
def arrays : Stmt → List String :=
  gather fun stmt => stmt.arrayName?.toList

def arraysInList : List Stmt → List String :=
  gatherList fun stmt => stmt.arrayName?.toList

/-- The names that a statement assigns as a whole. -/
def assigns : Stmt → List String :=
  gather fun stmt => stmt.assignedName?.toList

def assignsInList : List Stmt → List String :=
  gatherList fun stmt => stmt.assignedName?.toList

mutual

/-- Jumps out of loops stand in loop bodies; the start and the update of a loop are around it. -/
def jumpsInLoops (inLoop : Bool) : Stmt → Bool
  | breakLoop _ => inLoop
  | continueLoop _ => inLoop
  | ifElse _ _ thenBranch elseBranch =>
    jumpsInLoopsInList inLoop thenBranch &&
      match elseBranch with
      | none => true
      | some body => jumpsInLoopsInList inLoop body
  | whileLoop _ _ body => jumpsInLoopsInList true body
  | forLoop _ start _ update body =>
    jumpsInLoopsInOption inLoop start &&
      (jumpsInLoopsInList true body && jumpsInLoopsInOption inLoop update)
  | block _ body => jumpsInLoopsInList inLoop body
  | _ => true

def jumpsInLoopsInList (inLoop : Bool) : List Stmt → Bool
  | [] => true
  | stmt :: rest => stmt.jumpsInLoops inLoop && jumpsInLoopsInList inLoop rest

/-- The jumps of a statement that may be missing. -/
def jumpsInLoopsInOption (inLoop : Bool) : Option Stmt → Bool
  | none => true
  | some stmt => stmt.jumpsInLoops inLoop

end

mutual

theorem declared_subset : (stmt : Stmt) → stmt.declared ⊆ stmt.declares
  | varDecl _ _ _ _ | arrayDecl _ _ _ _ _ => fun _ member => member
  | ifElse _ _ thenBranch elseBranch => by
    have one := declaredInList_subset thenBranch
    cases elseBranch with
    | none => simpa [declared, declares, declaresInList, gather] using one
    | some body =>
      have two := declaredInList_subset body
      rw [declared, declares, gather]
      exact append_subset.mpr ⟨subset_append_of_subset_left _ one,
        subset_append_of_subset_right _ two⟩
  | whileLoop _ _ body | block _ body => by
    rw [declared, declares, gather]
    exact declaredInList_subset body
  | forLoop _ start _ update body => by
    have two := declaredInList_subset body
    have inner := subset_append_of_subset_left
      (gatherOption (fun stmt => stmt.declaredName?.toList) update) two
    cases start with
    | none =>
      rw [declared, declares, gather]
      exact inner
    | some stmt =>
      have one := declared_subset stmt
      rw [declared, declares, gather]
      exact append_subset.mpr ⟨subset_append_of_subset_left _ one,
        subset_append_of_subset_right _ inner⟩
  | assign _ _ _ | indexAssign _ _ _ _ | functionDecl _ _ _ _ _ | ret _ _ | print _ _
  | println _ _ | expr _ _ | breakLoop _ | continueLoop _ => fun _ member => by cases member

theorem declaredInList_subset : (stmts : List Stmt) →
    declaredInList stmts ⊆ declaresInList stmts
  | [] => fun _ member => by cases member
  | stmt :: rest => by
    have one := declared_subset stmt
    have two := declaredInList_subset rest
    rw [declaredInList, declaresInList, gatherList]
    exact append_subset.mpr ⟨subset_append_of_subset_left _ one,
      subset_append_of_subset_right _ two⟩

end

end ArmBackend.Stmt
