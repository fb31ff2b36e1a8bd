import ArmBackend.Proofs.Lowering.Drafts
import ArmBackend.Proofs.Lowering.Expr

/-!
# Code of stores

A value that is stored is first fitted to the type of its place.  The code of a
store leaves the state related to the world behind the assignment.
-/

namespace ArmBackend.Ir

open Source (Value World Code Handlers Run Variable Outcome)

theorem Operand.printedOf_stored (setting : Setting) (owns : String → Bool) (state : State)
    (value : Word) (dest : Operand) :
    Event.printedOf (dest.stored setting owns state value) = [] := by
  cases dest with
  | element array index type =>
    rw [Operand.stored]
    split <;> rfl
  | _ => rfl

variable {context : Context} {type : DataType} {line : Nat} {operand : Operand} {array : String}
  {value : Value}

namespace Stage

variable {stage : Stage} {config : Config} {state : State} {rest : List Instr}
  {output : List Printed} {fuel : Nat}

theorem fit_covered (floats : stage.env.floats = .binary64) {target : DataType} {world : World}
    (here : stage.At config ((Lowered.coerce context line target operand).code ++ rest) state
      world.output) (holds : stage.Holds context.temps state operand value) :
    stage.Covers fuel config (Run.fit target value world) fun fitted later after =>
      later = world ∧ fitted.type = target ∧ ∃ final, stage.At after rest final world.output ∧
        Keeps context.temps state final ∧ final.globals = state.globals ∧
        stage.Holds (Lowered.coerce context line target operand).context.temps final
          (Lowered.coerce context line target operand).operand fitted := by
  unfold Run.fit
  split
  · next fits =>
      obtain ⟨count, final, there, kept, globals, held⟩ := delivers_coerce floats holds here
      exact ⟨count, rfl, fits, final, there, kept, globals, held⟩
  · exact True.intro

/-- A value is fitted to its place and stored there. -/
theorem store_covered (floats : stage.env.floats = .binary64) {opcode : Opcode}
    (stores : opcode = .store ∨ opcode = .arrayStore) (dest : Operand) {world : World}
    (here : stage.At config ((Lowered.coerce context line dest.type operand).code ++
      (Instr.unary opcode dest (Lowered.coerce context line dest.type operand).operand).atLine line ::
        rest) state world.output) (holds : stage.Holds context.temps state operand value) :
    stage.Covers fuel config (Run.fit dest.type value world) fun fitted later after =>
      later = world ∧ fitted.type = dest.type ∧ ∃ middle, Keeps context.temps state middle ∧
        middle.globals = state.globals ∧ stage.At after rest
          (dest.assign stage.env.toSetting stage.function.owns middle fitted.bits) world.output := by
  unfold Run.fit
  split
  · next fits =>
      obtain ⟨count, middle, there, kept, globals, held⟩ := delivers_coerce floats holds here
      refine ⟨count + 1, rfl, fits, middle, kept, globals, ?_⟩
      rw [stage.run_add]
      refine there.silent ?_ (Operand.printedOf_stored stage.env.toSetting stage.function.owns middle
        (value.coerce dest.type).bits dest)
      rw [← held.bits]
      rcases stores with rfl | rfl <;> rfl
  · exact True.intro

end Stage

section

variable {stage : Stage} {code : Code} {place : Place} {bindings : Bindings} {config : Config}
  {state : State} {rest : List Instr} {fuel : Nat} {world : World}

variable (fits : stage.Fits code place) (avoids : Avoids code bindings)
  (related : Related stage.function bindings world state)
include fits avoids related

theorem write_covered {name : String} {target : Operand}
    (holds : stage.Holds context.temps state operand value)
    (resolved : place.resolve bindings name = .direct target ∨
      place.resolve bindings name = .shared target)
    (here : stage.At config ((Lowered.coerce context line target.type operand).code ++
      (Instr.store target (Lowered.coerce context line target.type operand).operand).atLine line ::
        rest) state world.output) :
    stage.Covers fuel config (code.write name value world) fun _ later after =>
      ∃ final, stage.At after rest final later.output ∧
        Related stage.function bindings later final := by
  unfold Code.write
  cases found : world.scopes.lookup name with
  | some slot =>
    cases slot with
    | array type size contents => exact True.intro
    | scalar old =>
      obtain ⟨home, shape, bound, _⟩ := related.held_of_lookup found
      have same : place.resolve bindings name = .direct home := by rw [Place.resolve, bound]
      have target : home = target := by
        rw [same] at resolved
        cases resolved with
        | inl direct => exact Storage.direct.inj direct
        | inr shared => cases shared
      subst target
      have type : home.type = old.type := by rcases shape with rfl | rfl <;> rfl
      dsimp only
      rw [← type]
      refine (Stage.store_covered fits.floats (.inl rfl) _ here holds).bind ?_
      rintro fitted later after ⟨rfl, kind, middle, kept, globals, arrived⟩
      obtain ⟨spot, named⟩ : ∃ spot, home.location? = some spot := by
        rcases shape with rfl | rfl <;> exact ⟨_, rfl⟩
      rw [Operand.assign_of_location? named] at arrived
      refine ⟨0, middle.set spot fitted.bits, arrived, ?_⟩
      refine Related.assign ?_ ((kind.trans type) ▸ shape) bound named
      exact related.keeps kept (globals.trans related.globals) rfl
  | none =>
    cases shared : code.shared? name with
    | none => exact True.intro
    | some declaration =>
      obtain ⟨same, type, count⟩ := declaration
      cases count with
      | some size => exact True.intro
      | none =>
        have home : place.resolve bindings name = .shared (.global name type) :=
          resolve_shared fits avoids shared
        have target : Operand.global name type = target := by
          rw [home] at resolved
          cases resolved with
          | inl direct => cases direct
          | inr shared => exact Storage.shared.inj shared
        subst target
        refine (Stage.store_covered fits.floats (.inl rfl) _ here holds).bind ?_
        rintro fitted later after ⟨rfl, kind, middle, kept, globals, arrived⟩
        have before := related.keeps kept (globals.trans related.globals) rfl
        exact ⟨0, middle.set (.global name) fitted.bits, arrived, before.assignGlobal name _⟩

theorem writeElement_covered {spot : Operand} {index : Value}
    (indexed : stage.Holds context.temps state spot index)
    (holds : stage.Holds context.temps state operand value)
    (resolved : (place.resolve bindings array).type = type)
    (here : stage.At config ((Lowered.coerce context line type operand).code ++
      (Instr.arrayStore (.element array spot type)
        (Lowered.coerce context line type operand).operand).atLine line :: rest) state
      world.output) :
    stage.Covers fuel config (code.writeElement array index value world) fun _ later after =>
      ∃ final, stage.At after rest final later.output ∧
        Related stage.function bindings later final := by
  unfold Code.writeElement
  by_cases float : index.type.isFloat = true
  · rw [if_pos float]
    exact True.intro
  rw [if_neg float]
  have plain : spot.type.isFloat = false := by
    rw [indexed.type]
    exact Bool.eq_false_iff.mpr float
  have spots {middle : State} (kept : Keeps context.temps state middle) (bits : Word) :
      (Operand.element array spot type).assign stage.env.toSetting stage.function.owns middle bits =
        middle.setElement (stage.function.owns array) array index.bits bits := by
    have position : stage.value middle spot = index.bits :=
      (indexed.keeps kept (Nat.le_refl _)).bits
    rw [← position]
    simp [Operand.assign, plain, Stage.value]
  cases found : world.scopes.lookup array with
  | some slot =>
    cases slot with
    | scalar value => exact True.intro
    | array element size contents =>
      obtain ⟨bound, owned, _⟩ := related.held_of_lookup found
      have same : element = type := by
        rw [← resolved, Place.resolve, bound]
        rfl
      subst same
      dsimp only
      split
      · refine (Stage.store_covered fits.floats (.inr rfl) (.element array spot element) here
          holds).bind ?_
        rintro fitted later after ⟨rfl, kind, middle, kept, globals, arrived⟩
        rw [spots kept, owned] at arrived
        refine ⟨0, middle.setElement true array index.bits fitted.bits, arrived, ?_⟩
        exact (related.keeps kept (globals.trans related.globals) rfl).assignElement found _ _
      · exact True.intro
  | none =>
    cases shared : code.shared? array with
    | none => exact True.intro
    | some declaration =>
      obtain ⟨same, element, count⟩ := declaration
      cases count with
      | none => exact True.intro
      | some size =>
        have home : place.resolve bindings array = .array array element :=
          resolve_shared fits avoids shared
        have same : element = type := by
          rw [← resolved, home]
          rfl
        subst same
        dsimp only
        split
        · refine (Stage.store_covered fits.floats (.inr rfl) (.element array spot element) here
            holds).bind ?_
          rintro fitted later after ⟨rfl, kind, middle, kept, globals, arrived⟩
          rw [spots kept, fits.apart array (by rw [shared]; rfl)] at arrived
          have before := related.keeps kept (globals.trans related.globals) rfl
          exact ⟨0, middle.setElement false array index.bits fitted.bits, arrived,
            before.assignGlobalElement array _ _⟩
        · exact True.intro

theorem fill_covered {handlers : Handlers}
    (calls : CallCovered stage.env stage.program code fuel handlers.call)
    (resolved : (place.resolve bindings array).type = type) {exprs : List Expr} {index : Nat}
    (strings : (lowerElements place bindings line array type index context exprs).2.strings.entries
      <+: stage.program.strings.entries)
    (here : stage.At config ((lowerElements place bindings line array type index context exprs).1 ++
      rest) state world.output) :
    stage.Covers fuel config (Source.fill code handlers array index exprs world)
      fun _ later after => ∃ final, stage.At after rest final later.output ∧
        Related stage.function bindings later final := by
  induction exprs generalizing index context config state world with
  | nil => exact ⟨0, state, here, related⟩
  | cons expr exprs ih =>
    have inner := (lowerElements_tame place bindings line array type exprs ..).1.strings.trans strings
    have first := (Lowered.Tame.coerce ..).issued.strings.trans inner
    rw [lowerElements] at here
    simp only [Lowered.coerced, Lowered.after, List.append_assoc, List.cons_append] at here
    rw [Source.fill]
    refine (eval_covered fits avoids calls related expr first here).bind ?_
    rintro value between after ⟨middle, there, kept, globals, scopes, holds⟩
    have later := related.keeps kept globals scopes
    have spot : stage.Holds (lowerExpr place bindings context expr).context.temps middle
        (.nat index) ⟨.int, BitVec.ofNat 64 index⟩ := ⟨rfl, rfl, rfl⟩
    refine (writeElement_covered fits avoids later spot holds resolved there).bind ?_
    rintro _ last final ⟨state, arrived, filled⟩
    exact ih filled strings arrived

end

end ArmBackend.Ir
