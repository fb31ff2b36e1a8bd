import ArmBackend.Proofs.Source.Interpreter

/-!
# Scopes of the source language

Whatever runs to its end leaves the variables that it found in scope, with new ones
in front of them.  Behind a scope exactly the old variables are left.
-/

namespace ArmBackend.Source

open List

/-- The names in scope, the innermost first. -/
def World.names (world : World) : List String :=
  world.scopes.map Prod.fst

/-- New names may stand in front of those that were in scope before. -/
def Run.Stacks {α : Type} (run : Run α) : Prop :=
  ∀ world value later, run world = .done value later → world.names <:+ later.names

theorem names_update (scopes : Scopes) (name : String) (slot : Variable) :
    (scopes.update name slot).map Prod.fst = scopes.map Prod.fst := by
  unfold Scopes.update
  rw [List.map_map]
  refine map_congr_left fun entry _ => ?_
  by_cases equal : entry.1 = name
  · simp [equal]
  · simp [equal]

namespace Run.Stacks

variable {α β : Type}

theorem pure (value : α) : Stacks (Pure.pure value : Run α) := by
  intro world given later done
  cases done
  exact suffix_refl _

theorem fail (fault : Fault) : Stacks (Run.fail fault : Run α) := by
  intro world value later done
  cases done

theorem outOfTime : Stacks (Run.outOfTime : Run α) := by
  intro world value later done
  cases done

theorem bind {first : Run α} {next : α → Run β} (one : Stacks first)
    (two : ∀ value, Stacks (next value)) : Stacks (first >>= next) := by
  intro world value later done
  change Run.bind first next world = .done value later at done
  unfold Run.bind at done
  cases found : first world with
  | done middle between =>
    rw [found] at done
    exact (one world middle between found).trans (two middle between value later done)
  | fault | timeout =>
    rw [found] at done
    cases done

theorem declare (name : String) (slot : Variable) : Stacks (Run.declare name slot) := by
  intro world value later done
  cases done
  exact suffix_cons _ _

theorem print (newline : Bool) (value : Value) : Stacks (Run.print newline value) := by
  intro world given later done
  cases done
  exact suffix_refl _

theorem fit (target : DataType) (value : Value) : Stacks (Run.fit target value) := by
  unfold Run.fit
  split
  · exact pure _
  · exact fail _

end Run.Stacks

variable {α : Type}

theorem names_inScope {inner : Run α} (tidy : inner.Stacks) {world later : World} {value : α}
    (done : Run.inScope inner world = .done value later) : later.names = world.names := by
  change Run.bind inner _ world = _ at done
  unfold Run.bind at done
  cases found : inner world with
  | done given between =>
    rw [found] at done
    obtain ⟨added, same⟩ := tidy world given between found
    cases done
    have count : between.scopes.length - world.scopes.length = added.length := by
      have lengths := congrArg List.length same
      simp only [World.names, length_append, length_map] at lengths
      omega
    change (between.scopes.drop _).map Prod.fst = world.names
    rw [count, map_drop]
    change between.names.drop added.length = world.names
    rw [← same, drop_left]
  | fault | timeout =>
    rw [found] at done
    cases done

namespace Run.Stacks

theorem inScope {inner : Run α} (tidy : inner.Stacks) : Stacks (Run.inScope inner) := by
  intro world value later done
  exact names_inScope tidy done ▸ suffix_refl _

theorem inFrame (scopes : Scopes) (inner : Run α) : Stacks (Run.inFrame scopes inner) := by
  intro world value later done
  change Run.bind inner _ _ = _ at done
  unfold Run.bind at done
  split at done
  · cases done
    exact suffix_refl _
  · cases done
  · cases done

theorem setShared (name : String) (bits : Word) : Stacks (Code.setShared name bits) := by
  intro world value later done
  cases done
  exact suffix_refl _

theorem setSharedElement (array : String) (index bits : Word) :
    Stacks (Code.setSharedElement array index bits) := by
  intro world value later done
  cases done
  exact suffix_refl _

/-- A fitted value goes into a variable. -/
theorem update (type : DataType) (value : Value) (name : String) (slot : Value → Variable) :
    Stacks (Run.bind (Run.fit type value) fun value world =>
      .done PUnit.unit { world with scopes := world.scopes.update name (slot value) }) := by
  refine bind (fit type value) fun fitted world given later done => ?_
  cases done
  rewrite [World.names, World.names, names_update]
  exact suffix_refl _

variable (code : Code)

theorem read (name : String) : Stacks (code.read name) := by
  intro world value later done
  unfold Code.read at done
  split at done
  · cases done
    exact suffix_refl _
  · cases done
  · split at done
    · cases done
      exact suffix_refl _
    · cases done
    · cases done

theorem readElement (array : String) (index : Value) : Stacks (code.readElement array index) := by
  intro world value later done
  have same : later = world := by
    simp only [Code.readElement] at done
    repeat' split at done
    all_goals cases done
    all_goals rfl
  exact same ▸ suffix_refl _

theorem write (name : String) (value : Value) : Stacks (code.write name value) := by
  intro world given later done
  unfold Code.write at done
  split at done
  · exact update _ value name .scalar world given later done
  · cases done
  · split at done
    · exact bind (fit _ value) (fun value => setShared name value.bits) world given later done
    · cases done
    · cases done

theorem writeElement (array : String) (index value : Value) :
    Stacks (code.writeElement array index value) := by
  intro world given later done
  simp only [Code.writeElement] at done
  split at done
  · cases done
  split at done
  · cases done
  · split at done
    · exact update _ value array (fun value => .array _ _ _) world given later done
    · cases done
  · split at done
    · split at done
      · exact bind (fit _ value) (fun value => setSharedElement array _ value.bits) world given later
          done
      · cases done
    · cases done
    · cases done

end Run.Stacks

/-- The handlers keep the discipline. -/
structure Handlers.Stack (handlers : Handlers) : Prop where
  call : ∀ callee arguments, (handlers.call callee arguments).Stacks
  loop : ∀ result loop, (handlers.loop result loop).Stacks

theorem andThen_stacks {next : Run Flow} (tidy : next.Stacks) (flow : Flow) :
    (flow.andThen next).Stacks := by
  cases flow with
  | next => exact tidy
  | _ => exact .pure _

section

-- The linter does not see that one theorem of a mutual block passes the variable to another.
set_option linter.unusedSectionVars false

variable {code : Code} {handlers : Handlers} (stack : handlers.Stack)
include stack

mutual

theorem eval_stacks : (expr : Expr) → (eval code handlers expr).Stacks
  | .int _ _ | .float _ _ | .bool _ _ | .str _ _ => .pure _
  | .name _ name => .read code name
  | .binary _ _ left right =>
    .bind (eval_stacks left) fun _ => .bind (eval_stacks right) fun _ => .pure _
  | .unary _ _ operand | .cast _ _ operand => .bind (eval_stacks operand) fun _ => .pure _
  | .call _ callee arguments => by
    refine .bind (evalList_stacks arguments) fun _ => .bind (stack.call callee _) fun value => ?_
    cases value with
    | none => exact .fail _
    | some value => exact .pure _
  | .index _ array index => .bind (eval_stacks index) fun _ => .readElement code array _

theorem evalList_stacks : (exprs : List Expr) → (evalList code handlers exprs).Stacks
  | [] => .pure _
  | expr :: rest =>
    .bind (eval_stacks expr) fun _ => .bind (evalList_stacks rest) fun _ => .pure _

end

theorem evalUnused_stacks (expr : Expr) : (evalUnused code handlers expr).Stacks := by
  unfold evalUnused
  split
  · next callee arguments =>
      exact .bind (evalList_stacks stack arguments) fun _ =>
        .bind (stack.call callee _) fun _ => .pure _
  · exact .bind (eval_stacks stack _) fun _ => .pure _

theorem evalInitial_stacks (type : DataType) (initial : Option Expr) :
    (evalInitial code handlers type initial).Stacks := by
  cases initial with
  | none => exact .fit _ _
  | some expr => exact .bind (eval_stacks stack expr) fun _ => .fit _ _

theorem fill_stacks (array : String) (exprs : List Expr) (index : Nat) :
    (fill code handlers array index exprs).Stacks := by
  induction exprs generalizing index with
  | nil => exact .pure _
  | cons expr rest ih =>
    exact .bind (eval_stacks stack expr) fun _ =>
      .bind (.writeElement code array _ _) fun _ => ih _

theorem test_stacks (condition : Option Expr) :
    (test code handlers condition).Stacks := by
  cases condition with
  | none => exact .pure _
  | some expr => exact .bind (eval_stacks stack expr) fun _ => .pure _

variable (result : DataType)

mutual

theorem exec_stacks : (stmt : Stmt) → (exec code handlers result stmt).Stacks
  | .varDecl _ name type initial =>
    .bind (evalInitial_stacks stack type initial) fun _ =>
      .bind (.declare name _) fun _ => .pure _
  | .arrayDecl _ name type size elements =>
    .bind (.declare name _) fun _ => .bind (fill_stacks stack name elements 0) fun _ =>
      .pure _
  | .assign _ name value =>
    .bind (eval_stacks stack value) fun _ => .bind (.write code name _) fun _ => .pure _
  | .indexAssign _ array index value =>
    .bind (eval_stacks stack index) fun _ => .bind (eval_stacks stack value) fun _ =>
      .bind (.writeElement code array _ _) fun _ => .pure _
  | .ifElse _ condition thenBranch none => by
    refine .bind (eval_stacks stack condition) fun value => ?_
    split
    · exact .inScope (execList_stacks thenBranch)
    · exact .pure _
  | .ifElse _ condition thenBranch (some elseBranch) => by
    refine .bind (eval_stacks stack condition) fun value => ?_
    split
    · exact .inScope (execList_stacks thenBranch)
    · exact .inScope (execList_stacks elseBranch)
  | .whileLoop _ condition body => stack.loop result _
  | .forLoop _ none condition update body =>
    .inScope (.bind (.pure _) fun flow => andThen_stacks (stack.loop result _) flow)
  | .forLoop _ (some stmt) condition update body =>
    .inScope (.bind (exec_stacks stmt) fun flow => andThen_stacks (stack.loop result _) flow)
  | .block _ body => .inScope (execList_stacks body)
  | .functionDecl _ _ _ _ _ | .ret _ none | .breakLoop _ | .continueLoop _ => .pure _
  | .ret _ (some expr) =>
    .bind (eval_stacks stack expr) fun _ => .bind (.fit result _) fun _ => .pure _
  | .print _ value | .println _ value =>
    .bind (eval_stacks stack value) fun _ => .bind (.print _ _) fun _ => .pure _
  | .expr _ value => .bind (evalUnused_stacks stack value) fun _ => .pure _

theorem execList_stacks : (stmts : List Stmt) → (execList code handlers result stmts).Stacks
  | [] => .pure _
  | stmt :: rest =>
    .bind (exec_stacks stmt) fun flow =>
      andThen_stacks (execList_stacks rest) flow

end

theorem round_stacks (loop : Loop) : (round code handlers result loop).Stacks := by
  refine .bind (test_stacks stack loop.condition) fun goesOn => ?_
  cases goesOn with
  | false => exact .pure _
  | true =>
    refine .bind (.inScope (execList_stacks stack result loop.body)) fun flow => ?_
    have update : (execUpdate code handlers result loop.update).Stacks := by
      cases loop.update with
      | none => exact .pure _
      | some stmt => exact .inScope (exec_stacks stack result stmt)
    have again := update.bind fun flow => andThen_stacks (stack.loop result loop) flow
    cases flow with
    | next | continued => exact again
    | broke | returned value => exact .pure _

end

theorem invoke_stacks (code : Code) (handlers : Handlers) (callee : String)
    (arguments : List Value) : (invoke code handlers callee arguments).Stacks := by
  unfold invoke
  split
  · exact .fail _
  split
  · refine .bind (.inFrame _ _) fun flow => .bind ?_ fun _ => .pure _
    cases flow with
    | next | returned value => exact .pure _
    | _ => exact .fail _
  · exact .fail _

/-- The handlers of any fuel keep the discipline. -/
theorem handlers_stack (code : Code) (fuel : Nat) : (handlers code fuel).Stack := by
  induction fuel with
  | zero => exact ⟨fun _ _ => .outOfTime, fun _ _ => .outOfTime⟩
  | succ fuel ih => exact ⟨invoke_stacks code _, round_stacks ih⟩

end ArmBackend.Source
