import ArmBackend.Proofs.Lowering.Derivation

/-!
# Places of names

Every name stands for a place of its own name: a variable or a parameter of the function
if it is bound there, and otherwise perhaps a global.  Steps of the derivation keep to this.
-/

namespace ArmBackend.Ir

open List

namespace Storage

/-- The operand that stands for the name. -/
def operand : Storage → Operand
  | direct operand => operand
  | shared global => global
  | array name element => .var name element

theorem type_operand (storage : Storage) : storage.operand.type = storage.type := by
  cases storage <;> rfl

theorem type_ofGlobal (global : Global) : (ofGlobal global).type = global.type := by
  unfold ofGlobal
  cases global.count <;> rfl

/-- The storage is a variable or a parameter of the name. -/
def Owns (name : String) (storage : Storage) : Prop :=
  storage.operand.location? = some (.var name) ∨ storage.operand.location? = some (.param name)

/-- The storage is a variable, a parameter or a global of the name. -/
def Named (name : String) (storage : Storage) : Prop :=
  storage.Owns name ∨ storage.operand.location? = some (.global name)

theorem owns_ofSymbol (name : String) (symbol : Option Symbol) :
    (ofSymbol name symbol).Owns name := by
  unfold ofSymbol
  split
  · exact .inl rfl
  · split
    · exact .inr rfl
    · exact .inl rfl
    · exact .inl rfl

theorem named_ofGlobal (global : Global) : (ofGlobal global).Named global.name := by
  unfold ofGlobal
  cases global.count with
  | none => exact .inr rfl
  | some count => exact .inl (.inl rfl)

variable {name : String} {storage : Storage} (named : storage.Named name)
include named

theorem Named.location? : ∃ place, storage.operand.location? = some place := by
  rcases named with (own | own) | own <;> exact ⟨_, own⟩

theorem Named.isVariable : storage.operand.isVariable = true := by
  unfold Named Owns at named
  cases same : storage.operand with
  | var _ _ | param _ _ | global _ _ => rfl
  | _ => rw [same] at named; simp [Operand.location?] at named

theorem Named.name_eq {place : Location} (spot : storage.operand.location? = some place) :
    place.name = name := by
  rcases named with (own | own) | own <;> cases own.symm.trans spot <;> rfl

end Storage

/-- Names that are bound have storage of their own. -/
def Bindings.Own (bindings : Bindings) : Prop :=
  ∀ entry ∈ bindings, entry.2.Owns entry.1

theorem Bindings.Own.owns {bindings : Bindings} (own : bindings.Own) {name : String}
    {storage : Storage} (found : bindings.lookup name = some storage) : storage.Owns name := by
  obtain ⟨before, behind, rfl, _⟩ := lookup_eq_some_iff.mp found
  exact own (name, storage) (mem_append_right _ (mem_cons_self ..))

/-- A global has the name that it is found by. -/
theorem Surroundings.name_of_global? {around : Surroundings} {name : String} {global : Global}
    (found : around.global? name = some global) : global.name = name := by
  simpa using find?_some found

namespace Place

variable (place : Place) {bindings : Bindings}

theorem named_resolve (own : bindings.Own) (name : String) :
    (place.resolve bindings name).Named name := by
  unfold resolve
  split
  · next found => exact .inl (own.owns found)
  · split
    · next found =>
        have named := Storage.named_ofGlobal ‹Global›
        rwa [Surroundings.name_of_global? found] at named
    · exact .inl (Storage.owns_ofSymbol ..)

theorem resolve_cons (name : String) (storage : Storage) (other : String) :
    place.resolve ((name, storage) :: bindings) other =
      if other = name then storage else place.resolve bindings other := by
  unfold resolve
  rw [lookup_cons]
  by_cases same : other = name
  · rw [if_pos same, beq_iff_eq.mpr same]
  · rw [if_neg same, beq_false_of_ne same]

end Place

section

variable {place : Place} {arrays : List String} {strict : Prop} {words : Vocabulary}
  {draft final : Draft} {known last : List Operand} {code : List Instr}
  {uses : Uses}

/-- Every step binds names to storage of their own. -/
theorem Emits.own (emits : Emits place arrays strict words draft known code uses final last)
    (own : Bindings.Own draft.bindings) : Bindings.Own final.bindings := by
  cases emits with
  | declare | reserve => exact forall_mem_cons.mpr ⟨.inl rfl, own⟩
  | _ => exact own

/-- Bindings are only added. -/
theorem Emits.suffix (emits : Emits place arrays strict words draft known code uses final last) :
    draft.bindings <:+ final.bindings := by
  cases emits with
  | declare | reserve => exact suffix_cons _ _
  | _ => exact suffix_refl _

theorem Writes.suffix (writes : Writes place arrays strict words draft known code uses final last) :
    draft.bindings <:+ final.bindings := by
  induction writes with
  | refl => exact suffix_refl _
  | step emits _ ih => exact emits.suffix.trans ih

end

end ArmBackend.Ir
