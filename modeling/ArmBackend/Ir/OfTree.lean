import ArmBackend.Ir.OfStmt

/-!
# Programs of trees

The statements at top level become the entry function, which comes first; each
declared function becomes a function of its own.  Temporaries, labels and strings
are numbered through the whole program.
-/

namespace ArmBackend.Ir

/-- The name of the function that runs the statements at top level. -/
def entryName : String := "main"

def endsInReturn (code : List Instr) : Bool :=
  match code.getLast? with
  | some instr => instr.opcode == .ret
  | none => false

namespace Function

/--
The entry function returns zero at its end; with `suppress` this is left out where
its code ends in a return anyway.
-/
def ofEntry (around : Surroundings) (suppress : Bool) (context : Context) (body : List Stmt) :
    Except CompileError (Function × Context) := do
  let place : Place := ⟨around, none, .int⟩
  let (code, draft) ← lowerEntry place { context } body
  let code := Instr.enter entryName :: code
  let closing := if suppress && endsInReturn code then [] else [Instr.ret (some (.int 0))]
  .ok ({ name := entryName, locals := draft.locals, code := code ++ closing }, draft.context)

/-- A declared function; control that reaches its end leaves it. -/
def ofDeclared (around : Surroundings) (context : Context) (declared : Declared) :
    Except CompileError (Function × Context) := do
  let parameters := declared.parameters.map fun parameter =>
    (parameter.name, Operand.param parameter.name parameter.type)
  let place : Place := ⟨around, some declared.name, declared.result⟩
  let bindings := (parameters.map fun entry => (entry.1, Storage.direct entry.2)).reverse
  let (code, draft) ← lowerStmts place { context, bindings } declared.body
  let code := Instr.enter declared.name :: code
  let closing := if endsInReturn code then [] else [Instr.exit declared.name]
  .ok ({ name := declared.name
         parameters := parameters.map Prod.snd
         result := declared.result
         locals := draft.locals
         code := code ++ closing }, draft.context)

def ofDeclaredList (around : Surroundings) :
    Context → List Declared → Except CompileError (List Function × Context)
  | context, [] => .ok ([], context)
  | context, declared :: rest => do
    let (function, context) ← ofDeclared around context declared
    let (others, context) ← ofDeclaredList around context rest
    .ok (function :: others, context)

end Function

/-- The program of a tree, and the names that were issued for it. -/
def Program.ofTree (scopes : ScopeTrace) (suppress : Bool) (tree : Tree) :
    Except CompileError (Program × Context) := do
  let around := Surroundings.ofTree scopes tree
  let (entry, context) ← Function.ofEntry around suppress .empty tree.entry
  let (others, context) ← Function.ofDeclaredList around context around.functions
  .ok ({ functions := entry :: others, globals := around.globals, strings := context.strings },
    context)

end ArmBackend.Ir
