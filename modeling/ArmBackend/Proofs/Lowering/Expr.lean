import ArmBackend.Proofs.Lowering.Value
import Mathlib.Data.List.Forall2

/-!
# Code of expressions

The code of an expression covers its evaluation: it prints what the evaluation
prints, by way of the functions that are called, and leaves the value in its operand.
-/

namespace ArmBackend.Ir

open List

open Source (Value World Code Handlers Run Variable Outcome)

/-- No shared name has a binding in the function. -/
def Avoids (code : Code) (bindings : Bindings) : Prop :=
  ∀ name ∈ bindings.map Prod.fst, code.shared? name = none

variable {code : Code} {config : Config} {context : Context} {rest : List Instr} {bound : Nat}
  {operand : Operand} {before state : State} {name : String} {declaration : TopLevel}
  {value : Value} {start world : World}

theorem Avoids.lookup {bindings : Bindings} (avoids : Avoids code bindings)
    (shared : code.shared? name = some declaration) : bindings.lookup name = none := by
  cases found : bindings.lookup name with
  | none => rfl
  | some storage =>
    have member := mem_map_of_mem (f := Prod.fst) (mem_of_lookup found)
    have clash := avoids name member
    rw [shared] at clash
    cases clash

/-- What lowering and the run of a function take from around it is what the source has there. -/
structure Stage.Fits (stage : Stage) (code : Code) (place : Place) : Prop where
  /-- no label stands twice in the function -/
  labels : (marksOf stage.function.code).Nodup
  floats : stage.env.floats = .binary64
  strings : ∀ id literal, stage.program.strings.get? id = some literal →
    stage.env.label (Operand.stringLabel id) = code.address literal
  shared : ∀ name declaration, code.shared? name = some declaration →
    place.around.global? name = some declaration.toGlobal
  apart : ∀ name, (code.shared? name).isSome = true → stage.function.owns name = false
  results : ∀ name function, code.function? name = some function →
    place.around.resultType name = function.result

theorem name_of_shared? (found : code.shared? name = some declaration) :
    declaration.name = name := by
  simpa using find?_some found

namespace Stage

section

variable (stage : Stage)

/-- The code of an expression has been run. -/
def Yields (bound : Nat) (lowered : Lowered) (world : World) (state : State) (rest : List Instr)
    (value : Value) (later : World) (after : Config) : Prop :=
  ∃ final, stage.At after rest final later.output ∧ Keeps bound state final ∧
    final.globals = later.globals ∧ later.scopes = world.scopes ∧
    stage.Holds lowered.context.temps final lowered.operand value

/-- The code of several expressions has been run. -/
def YieldsList (bound : Nat) (lowered : LoweredList) (world : World) (state : State)
    (rest : List Instr) (values : List Value) (later : World) (after : Config) : Prop :=
  ∃ final, stage.At after rest final later.output ∧ Keeps bound state final ∧
    final.globals = later.globals ∧ later.scopes = world.scopes ∧
    Forall₂ (stage.Holds lowered.context.temps final) lowered.operands values

/-- A call has come back; if the function gave a value, the operand holds it. -/
def Returns (bound : Nat) (lowered : Lowered) (world : World) (state : State) (rest : List Instr)
    (value : Option Value) (later : World) (after : Config) : Prop :=
  ∃ final, stage.At after rest final later.output ∧ Keeps bound state final ∧
    final.globals = later.globals ∧ later.scopes = world.scopes ∧
    ∀ given, value = some given → stage.Holds lowered.context.temps final lowered.operand given

end

variable {stage : Stage} {config : Config} {state : State} {rest : List Instr} {world : World}

theorem Delivers.covers {fuel : Nat} {lowered : Lowered}
    (delivers : stage.Delivers config context lowered state rest world.output value)
    (kept : Keeps bound before state) (le : bound ≤ context.temps)
    (globals : state.globals = world.globals) (scopes : world.scopes = start.scopes)
    (code : List Instr) :
    stage.Covers fuel config (.done value world)
      (stage.Yields bound (lowered.after code) start before rest) := by
  obtain ⟨count, final, there, keptMore, unchanged, holds⟩ := delivers
  exact ⟨count, final, there, kept.trans keptMore le, unchanged.trans globals, scopes, holds⟩

end Stage

/-- The handler of calls is covered by the code of calls, in every function. -/
def CallCovered (env : Env) (program : Program) (code : Code) (fuel : Nat)
    (call : String → List Value → Run (Option Value)) : Prop :=
  ∀ (stage : Stage), stage.env = env → stage.program = program →
  ∀ (context : Context) (line : Nat) (callee : String) (result : DataType)
    (operands : List Operand) (values : List Value) (world : World) (state : State)
    (config : Config) (rest : List Instr),
    (∀ function, code.function? callee = some function → result = function.result) →
    state.globals = world.globals → state.locals.pending = [] →
    Forall₂ (stage.Holds context.temps state) operands values →
    stage.At config ((Lowered.call context line callee result operands).code ++ rest) state
      world.output →
    stage.Covers fuel config (call callee values world)
      (stage.Returns context.temps (.call context line callee result operands) world state rest)

section

variable {stage : Stage} {code : Code} {place : Place} {bindings : Bindings}

theorem resolve_shared (fits : stage.Fits code place) (avoids : Avoids code bindings)
    (found : code.shared? name = some declaration) :
    place.resolve bindings name = .ofGlobal ⟨name, declaration.type, declaration.count⟩ := by
  rw [Place.resolve, avoids.lookup found, fits.shared name declaration found]
  change Storage.ofGlobal declaration.toGlobal = _
  rw [TopLevel.toGlobal, name_of_shared? found]

section

variable (fits : stage.Fits code place) (avoids : Avoids code bindings) {world : World}
  {state : State} (related : Related stage.function bindings world state)
include fits avoids related

theorem read_covered {fuel line : Nat}
    (here : stage.At config ((Lowered.read context line (place.resolve bindings name)).code ++ rest)
      state world.output) :
    stage.Covers fuel config (code.read name world)
      (stage.Yields context.temps (.read context line (place.resolve bindings name)) world state
        rest) := by
  unfold Code.read
  cases found : world.scopes.lookup name with
  | some slot =>
    cases slot with
    | array type size contents => exact True.intro
    | scalar value =>
      obtain ⟨operand, shape, bound, holds⟩ := related.held_of_lookup found
      have resolved : place.resolve bindings name = .direct operand := by
        rw [Place.resolve, bound]
      rw [resolved] at here ⊢
      have held : stage.Holds context.temps state operand value := by
        cases shape with
        | inl same | inr same => subst same; exact ⟨rfl, holds _ rfl, True.intro⟩
      exact (Stage.delivers_value here held).covers (.refl _ _) (Nat.le_refl _)
        related.globals rfl []
  | none =>
    cases shared : code.shared? name with
    | none => exact True.intro
    | some declaration =>
      obtain ⟨same, type, count⟩ := declaration
      cases count with
      | some size => exact True.intro
      | none =>
        have resolved : place.resolve bindings name = .shared (.global name type) :=
          resolve_shared fits avoids shared
        rw [resolved] at here ⊢
        have delivers := Stage.delivers_copy rfl rfl (fun _ => rfl) here
        have value : stage.value state (.global name type) =
            world.globals.scalars name := by
          rw [← related.globals]
          rfl
        rw [value] at delivers
        exact delivers.covers (.refl _ _) (Nat.le_refl _) related.globals rfl []

theorem readElement_covered {fuel line : Nat} {array : String} {index : Value}
    (holds : stage.Holds context.temps state operand index)
    (here : stage.At config ((Lowered.element context line array
      (place.resolve bindings array).type operand).code ++ rest) state world.output)
    (kept : Keeps bound before state) (le : bound ≤ context.temps)
    (scopes : world.scopes = start.scopes) (more : List Instr) :
    stage.Covers fuel config (code.readElement array index world)
      (stage.Yields bound ((Lowered.element context line array
        (place.resolve bindings array).type operand).after more) start before rest) := by
  unfold Code.readElement
  by_cases float : index.type.isFloat = true
  · rw [if_pos float]
    exact True.intro
  rw [if_neg float]
  have value (type : DataType) : stage.value state (.element array operand type) =
      state.element (stage.function.owns array) array index.bits := by
    have plain : operand.type.isFloat = false := by
      rw [holds.type]
      exact Bool.eq_false_iff.mpr float
    rw [← holds.bits]
    simp [Stage.value, Operand.value, plain]
  cases found : world.scopes.lookup array with
  | some slot =>
    cases slot with
    | scalar value => exact True.intro
    | array type size contents =>
      obtain ⟨bound, owned, written⟩ := related.held_of_lookup found
      have resolved : place.resolve bindings array = .array array type := by
        rw [Place.resolve, bound]
      dsimp only
      split
      · cases element : contents index.bits with
        | none => exact True.intro
        | some bits =>
          rw [resolved] at here ⊢
          have delivers := Stage.delivers_copy rfl rfl (fun _ => rfl) here
          rw [value, owned, State.element, if_pos rfl, written _ _ element] at delivers
          exact delivers.covers kept le related.globals scopes more
      · exact True.intro
  | none =>
    cases shared : code.shared? array with
    | none => exact True.intro
    | some declaration =>
      obtain ⟨same, type, count⟩ := declaration
      cases count with
      | none => exact True.intro
      | some size =>
        have resolved : place.resolve bindings array = .array array type :=
          resolve_shared fits avoids shared
        dsimp only
        split
        · rw [resolved] at here ⊢
          have delivers := Stage.delivers_copy rfl rfl (fun _ => rfl) here
          rw [value, fits.apart array (by rw [shared]; rfl), State.element,
            if_neg Bool.false_ne_true, related.globals] at delivers
          exact delivers.covers kept le related.globals scopes more
        · exact True.intro

end

variable {handlers : Handlers} {fuel : Nat}

/-- The address of a string literal. -/
theorem string_covered (fits : stage.Fits code place) {line : Nat} {literal : String}
    (globals : state.globals = world.globals)
    (strings : (Lowered.string context line literal).context.strings.entries <+:
      stage.program.strings.entries)
    (here : stage.At config ((Lowered.string context line literal).code ++ rest) state
      world.output) :
    stage.Covers fuel config (.done ⟨.str, code.address literal⟩ world)
      (stage.Yields context.temps (.string context line literal) world state rest) := by
  have id := StringTable.get?_of_prefix strings (context.strings.get?_intern literal)
  have delivers : stage.Delivers config (context.intern literal).2
      (.string context line literal) state rest world.output
      ⟨.str, stage.value state (.stringRef (context.intern literal).1)⟩ :=
    Stage.delivers_copy rfl rfl (fun _ => rfl) here
  have address : stage.value state (.stringRef (context.intern literal).1) =
      code.address literal := fits.strings _ literal id
  rw [address] at delivers
  exact delivers.covers (.refl _ _) (Nat.le_refl _) globals rfl []

mutual

theorem eval_covered (fits : stage.Fits code place) (avoids : Avoids code bindings)
    (calls : CallCovered stage.env stage.program code fuel handlers.call)
    {context : Context} {world : World} {state : State} {config : Config} {rest : List Instr}
    (related : Related stage.function bindings world state) : (expr : Expr) →
    (strings : (lowerExpr place bindings context expr).context.strings.entries <+:
      stage.program.strings.entries) →
    (here : stage.At config ((lowerExpr place bindings context expr).code ++ rest) state
      world.output) →
    stage.Covers fuel config (Source.eval code handlers expr world)
      (stage.Yields context.temps (lowerExpr place bindings context expr) world state rest)
  | .int .., _, here | .float .., _, here | .bool .., _, here =>
    ⟨0, state, here, .refl _ _, related.globals, rfl, rfl, rfl, rfl⟩
  | .str position literal, strings, here => string_covered fits related.globals strings here
  | .name position name, _, here => read_covered fits avoids related here
  | .binary position op left right, strings, here => by
    have one := lowerExpr_tame place bindings context left
    have two := lowerExpr_tame place bindings (lowerExpr place bindings context left).context right
    have inner := (Lowered.Tame.binary ..).issued.strings.trans strings
    rw [lowerExpr] at here
    simp only [Lowered.after, append_assoc] at here
    rw [Source.eval]
    refine (eval_covered fits avoids calls related left (two.issued.strings.trans inner)
      here).bind ?_
    rintro first between after ⟨middle, there, kept, globals, scopes, holds⟩
    refine (eval_covered fits avoids calls (related.keeps kept globals scopes) right inner
      there).bind ?_
    rintro second later last ⟨final, arrived, keptMore, globalsMore, scopesMore, holdsMore⟩
    have delivers := Stage.delivers_binary fits.floats arrived
      (holds.keeps keptMore two.issued.temps) holdsMore
    exact delivers.covers (kept.trans keptMore one.issued.temps)
      (Nat.le_trans one.issued.temps two.issued.temps) globalsMore (scopesMore.trans scopes) _
  | .unary position op operand, strings, here => by
    have one := lowerExpr_tame place bindings context operand
    have inner := (Lowered.Tame.unary ..).issued.strings.trans strings
    rw [lowerExpr] at here
    simp only [Lowered.after, append_assoc] at here
    rw [Source.eval]
    refine (eval_covered fits avoids calls related operand inner here).bind ?_
    rintro value later after ⟨final, there, kept, globals, scopes, holds⟩
    exact (Stage.delivers_unary fits.floats holds there).covers kept one.issued.temps globals
      scopes _
  | .call position callee arguments, strings, here => by
    have one := lowerExprs_tame place bindings context arguments
    have inner := (Lowered.Tame.call _ _ _ _
      (lowerExprs place bindings context arguments).operands).issued.strings.trans strings
    rw [lowerExpr] at here
    simp only [Lowered.after, append_assoc] at here
    rw [Source.eval]
    refine (evalList_covered fits avoids calls related arguments inner here).bind ?_
    rintro values between after ⟨middle, there, kept, globals, scopes, holds⟩
    refine (calls stage rfl rfl _ _ _ _ _ _ _ _ _ _ (fits.results callee) globals
      (kept.pending.trans related.pending) holds there).bind ?_
    rintro value later last ⟨final, arrived, keptMore, globalsMore, scopesMore, given⟩
    cases value with
    | none => exact True.intro
    | some value =>
      exact ⟨0, final, arrived, kept.trans keptMore one.issued.temps, globalsMore,
        scopesMore.trans scopes, given value rfl⟩
  | .index position array index, strings, here => by
    have one := lowerExpr_tame place bindings context index
    have inner := (Lowered.Tame.element _ position.line array (place.resolve bindings array).type
      (lowerExpr place bindings context index).operand).issued.strings.trans strings
    rw [lowerExpr] at here
    simp only [Lowered.after, append_assoc] at here
    rw [Source.eval]
    refine (eval_covered fits avoids calls related index inner here).bind ?_
    rintro value later after ⟨final, there, kept, globals, scopes, holds⟩
    exact readElement_covered fits avoids (related.keeps kept globals scopes) holds there kept
      one.issued.temps scopes _
  | .cast position target operand, strings, here => by
    have one := lowerExpr_tame place bindings context operand
    have inner := (Lowered.Tame.cast _ position.line target
      (lowerExpr place bindings context operand).operand).issued.strings.trans strings
    rw [lowerExpr] at here
    simp only [Lowered.after, append_assoc] at here
    rw [Source.eval]
    refine (eval_covered fits avoids calls related operand inner here).bind ?_
    rintro value later after ⟨final, there, kept, globals, scopes, holds⟩
    exact (Stage.delivers_cast fits.floats holds there).covers kept one.issued.temps globals
      scopes _

theorem evalList_covered (fits : stage.Fits code place) (avoids : Avoids code bindings)
    (calls : CallCovered stage.env stage.program code fuel handlers.call)
    {context : Context} {world : World} {state : State} {config : Config} {rest : List Instr}
    (related : Related stage.function bindings world state) : (exprs : List Expr) →
    (strings : (lowerExprs place bindings context exprs).context.strings.entries <+:
      stage.program.strings.entries) →
    (here : stage.At config ((lowerExprs place bindings context exprs).code ++ rest) state
      world.output) →
    stage.Covers fuel config (Source.evalList code handlers exprs world)
      (stage.YieldsList context.temps (lowerExprs place bindings context exprs) world state rest)
  | [], _, here => ⟨0, state, here, .refl _ _, related.globals, rfl, .nil⟩
  | expr :: exprs, strings, here => by
    have one := lowerExpr_tame place bindings context expr
    have two := lowerExprs_tame place bindings (lowerExpr place bindings context expr).context
      exprs
    rw [lowerExprs] at here
    simp only [append_assoc] at here
    rw [Source.evalList]
    refine (eval_covered fits avoids calls related expr (two.issued.strings.trans strings)
      here).bind ?_
    rintro first between after ⟨middle, there, kept, globals, scopes, holds⟩
    refine (evalList_covered fits avoids calls (related.keeps kept globals scopes) exprs strings
      there).bind ?_
    rintro others later last ⟨final, arrived, keptMore, globalsMore, scopesMore, holdsMore⟩
    exact ⟨0, final, arrived, kept.trans keptMore one.issued.temps, globalsMore,
      scopesMore.trans scopes, .cons (holds.keeps keptMore two.issued.temps) holdsMore⟩

end

end

end ArmBackend.Ir
