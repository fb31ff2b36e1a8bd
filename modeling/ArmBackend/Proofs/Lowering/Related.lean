import ArmBackend.Proofs.Lowering.Simulation
import ArmBackend.Proofs.Source.Scoping

/-!
# States and worlds

When the state of an activation fits a world of the source language: every variable
in scope has its binding and its value, and the shared memory is the same.
Expressions keep all of this, since they write only to temporaries that are new.
-/

namespace ArmBackend.Ir

open List

open Source (Value World Variable Code)

/-- Only temporaries from a number on, and globals, may differ. -/
structure Keeps (bound : Nat) (before after : State) : Prop where
  places : ∀ place : Location, place.isGlobal = false →
    (∀ number, bound ≤ number → place ≠ .temp (tempName number)) →
    after.get place = before.get place
  arrays : after.locals.arrays = before.locals.arrays
  pending : after.locals.pending = before.locals.pending

variable {place : Location} {bound : Nat} {operand : Operand} {after : State} {name : String}
  {slot : Variable}

namespace Keeps

theorem refl (bound : Nat) (state : State) : Keeps bound state state :=
  ⟨fun _ _ _ => rfl, rfl, rfl⟩

theorem trans {low high : Nat} {first second third : State} (one : Keeps low first second)
    (two : Keeps high second third) (le : low ≤ high) : Keeps low first third where
  places place isLocal old := by
    rw [two.places place isLocal fun number above => old number (Nat.le_trans le above)]
    exact one.places place isLocal old
  arrays := two.arrays.trans one.arrays
  pending := two.pending.trans one.pending

theorem setTemp {number : Nat} (le : bound ≤ number) (state : State) (value : Word) :
    Keeps bound state (state.set (.temp (tempName number)) value) where
  places _ _ old := state.get_set_ne value (old number le)
  arrays := rfl
  pending := rfl

theorem setGlobal (bound : Nat) (state : State) (globals : Globals) :
    Keeps bound state { state with globals } where
  places place isLocal _ := by
    cases place with
    | global name => cases isLocal
    | _ => rfl
  arrays := rfl
  pending := rfl

end Keeps

namespace Operand

/--
The value is a literal of the kind of its type, or in a place of the activation that
newer code leaves alone.
-/
def Settled (bound : Nat) : Operand → Prop
  | temp name _ => ∃ number, number < bound ∧ name = tempName number
  | var _ _ => True
  | param _ _ => True
  | immediate value type => value.isFloat = type.isFloat
  | _ => False

theorem Settled.mono {low high : Nat} (settled : operand.Settled low) (le : low ≤ high) :
    operand.Settled high := by
  cases operand with
  | temp name type =>
    obtain ⟨number, below, same⟩ := settled
    exact ⟨number, Nat.lt_of_lt_of_le below le, same⟩
  | _ => exact settled

theorem Settled.value_eq (settled : operand.Settled bound) {before : State}
    (keeps : Keeps bound before after) (setting : Setting) (owns : String → Bool) :
    operand.value setting owns after = operand.value setting owns before := by
  cases operand with
  | temp name type =>
    obtain ⟨number, below, rfl⟩ := settled
    refine keeps.places _ rfl fun other above same => ?_
    have equal := tempName_injective (Location.temp.inj same)
    omega
  | var name type | param name type => exact keeps.places _ rfl fun _ _ => Location.noConfusion
  | immediate value type => rfl
  | global name type | label name type | element array index type => exact settled.elim

end Operand

theorem mem_of_lookup {α : Type} {entries : List (String × α)} {value : α}
    (found : entries.lookup name = some value) : (name, value) ∈ entries := by
  obtain ⟨before, after, split, _⟩ := lookup_eq_some_iff.mp found
  rw [split]
  exact mem_append_right _ (mem_cons_self ..)

theorem lookup_of_suffix {older newer : Bindings} (grown : older <:+ newer)
    (distinct : (newer.map Prod.fst).Nodup) {storage : Storage}
    (found : older.lookup name = some storage) : newer.lookup name = some storage := by
  obtain ⟨added, rfl⟩ := grown
  rw [map_append] at distinct
  have outside : added.lookup name = none := by
    cases hidden : added.lookup name with
    | none => rfl
    | some other =>
      have left := mem_map_of_mem (f := Prod.fst) (mem_of_lookup hidden)
      have right := mem_map_of_mem (f := Prod.fst) (mem_of_lookup found)
      exact absurd rfl ((nodup_append.mp distinct).2.2 name left name right)
  rw [lookup_append, outside]
  exact found

/-- A variable in scope has its binding, and its place has its value. -/
def Held (function : Function) (bindings : Bindings) (state : State) (name : String) :
    Variable → Prop
  | .scalar value =>
    ∃ operand, (operand = .var name value.type ∨ operand = .param name value.type) ∧
      bindings.lookup name = some (.direct operand) ∧
      ∀ place, operand.location? = some place → state.get place = value.bits
  | .array type _ contents =>
    bindings.lookup name = some (.array name type) ∧ function.owns name = true ∧
      ∀ index bits, contents index = some bits → state.locals.arrays name index = bits

/-- The state of an activation fits the world. -/
structure Related (function : Function) (bindings : Bindings) (world : World) (state : State) :
    Prop where
  globals : state.globals = world.globals
  pending : state.locals.pending = []
  distinct : (world.scopes.map Prod.fst).Nodup
  held : ∀ name slot, (name, slot) ∈ world.scopes → Held function bindings state name slot

section

variable {function : Function} {bindings : Bindings} {state : State} {name : String}
  {slot : Variable} (held : Held function bindings state name slot)
include held

/-- Only the binding of the variable and its own place matter. -/
theorem Held.imp {others : Bindings}
    (bound : ∀ {storage}, bindings.lookup name = some storage → others.lookup name = some storage)
    (places : ∀ place, place = .var name ∨ place = .param name →
      after.get place = state.get place)
    (arrays : after.locals.arrays name = state.locals.arrays name) :
    Held function others after name slot := by
  cases slot with
  | scalar value =>
    obtain ⟨operand, shape, found, holds⟩ := held
    refine ⟨operand, shape, bound found, fun place named => ?_⟩
    rw [← holds place named]
    refine places place ?_
    rcases shape with rfl | rfl <;> cases named
    · exact .inl rfl
    · exact .inr rfl
  | array type size contents =>
    obtain ⟨found, owned, holds⟩ := held
    exact ⟨bound found, owned, by rwa [arrays]⟩

theorem Held.keeps (keeps : Keeps bound state after) :
    Held function bindings after name slot := by
  refine held.imp id ?_ (by rw [keeps.arrays])
  rintro place (rfl | rfl)
  · exact keeps.places _ rfl fun _ _ => Location.noConfusion
  · exact keeps.places _ rfl fun _ _ => Location.noConfusion

theorem Held.set (value : Word) (apart : place ≠ .var name ∧ place ≠ .param name) :
    Held function bindings (state.set place value) name slot := by
  refine held.imp id ?_ (by rw [state.arrays_set])
  rintro home (rfl | rfl)
  · exact state.get_set_ne value apart.1.symm
  · exact state.get_set_ne value apart.2.symm

theorem Held.cons {other : String} (storage : Storage) (differ : name ≠ other) :
    Held function ((other, storage) :: bindings) state name slot := by
  have skips : List.lookup name ((other, storage) :: bindings) = bindings.lookup name := by
    rw [lookup_cons, beq_eq_false_iff_ne.mpr differ]
  exact held.imp skips.trans (fun _ _ => rfl) rfl

end

theorem mem_update {scopes : Source.Scopes} {other : String} {old : Variable}
    (member : (other, old) ∈ scopes.update name slot) :
    (other = name ∧ old = slot) ∨ (other ≠ name ∧ (other, old) ∈ scopes) := by
  obtain ⟨⟨key, entry⟩, inside, same⟩ := mem_map.mp member
  by_cases equal : key = name
  · rw [if_pos equal] at same
    cases same
    exact .inl ⟨rfl, rfl⟩
  · rw [if_neg equal] at same
    cases same
    exact .inr ⟨equal, inside⟩

namespace Related

variable {function : Function} {bindings : Bindings} {world : World} {state : State}

variable (related : Related function bindings world state)
include related

/-- What an expression leaves behind. -/
theorem keeps {later : World} (kept : Keeps bound state after)
    (globals : after.globals = later.globals) (scopes : later.scopes = world.scopes) :
    Related function bindings later after where
  globals := globals
  pending := kept.pending.trans related.pending
  distinct := by
    rw [scopes]
    exact related.distinct
  held name slot member := by
    rw [scopes] at member
    exact (related.held name slot member).keeps kept

theorem held_of_lookup (found : world.scopes.lookup name = some slot) :
    Held function bindings state name slot :=
  related.held name slot (mem_of_lookup found)

theorem mem_keys (member : (name, slot) ∈ world.scopes) : name ∈ bindings.map Prod.fst := by
  have held := related.held name slot member
  cases slot with
  | scalar value =>
    obtain ⟨operand, _, bound, _⟩ := held
    exact mem_map_of_mem (f := Prod.fst) (mem_of_lookup bound)
  | array type size contents => exact mem_map_of_mem (f := Prod.fst) (mem_of_lookup held.1)

/-- Bindings of more names do no harm. -/
theorem grow {newer : Bindings} (grown : bindings <:+ newer)
    (distinct : (newer.map Prod.fst).Nodup) :
    Related function newer world state :=
  { related with
    held := fun name slot member =>
      (related.held name slot member).imp (lookup_of_suffix grown distinct) (fun _ _ => rfl) rfl }

theorem shrink {older : Bindings} (grown : older <:+ bindings)
    (distinct : (bindings.map Prod.fst).Nodup)
    (within : ∀ name ∈ world.names, name ∈ older.map Prod.fst) :
    Related function older world state := by
  refine { related with held := fun name slot member => ?_ }
  have known := within name (mem_map_of_mem (f := Prod.fst) member)
  have same {storage : Storage} (found : bindings.lookup name = some storage) :
      older.lookup name = some storage := by
    cases old : older.lookup name with
    | none =>
      obtain ⟨entry, inside, rfl⟩ := mem_map.mp known
      have outside := lookup_eq_none_iff.mp old entry inside
      rw [bne_self_eq_false] at outside
      cases outside
    | some other => rw [← found, lookup_of_suffix grown distinct old]
  exact (related.held name slot member).imp same (fun _ _ => rfl) rfl

/-- Leaving a scope keeps the variables around it. -/
theorem leave (count : Nat) :
    Related function bindings { world with scopes := world.scopes.drop count } state :=
  { related with
    distinct := related.distinct.sublist ((drop_sublist count world.scopes).map Prod.fst)
    held := fun name slot member => related.held name slot (mem_of_mem_drop member) }

/-- A fresh name is declared; its place has its value already. -/
theorem declare {storage : Storage} (fresh : name ∉ bindings.map Prod.fst)
    (here : Held function ((name, storage) :: bindings) state name slot) :
    Related function ((name, storage) :: bindings)
      { world with scopes := (name, slot) :: world.scopes } state := by
  refine { related with distinct := nodup_cons.mpr ⟨?_, related.distinct⟩, held := ?_ }
  · rintro member
    obtain ⟨⟨other, slot⟩, inside, rfl⟩ := mem_map.mp member
    exact fresh (related.mem_keys inside)
  · intro other old member
    cases member with
    | head => exact here
    | tail _ inside =>
      exact (related.held other old inside).cons storage
        (ne_of_mem_of_not_mem (related.mem_keys inside) fresh)

/-- The declaration of a variable. -/
theorem declareScalar (fresh : name ∉ bindings.map Prod.fst) (value : Value) :
    Related function ((name, .direct (.var name value.type)) :: bindings)
      { world with scopes := (name, .scalar value) :: world.scopes }
      (state.set (.var name) value.bits) := by
  have stored : Related function bindings world (state.set (.var name) value.bits) := by
    refine { related with held := fun other slot inside => ?_ }
    refine (related.held other slot inside).set value.bits ⟨fun same => fresh ?_, Location.noConfusion⟩
    exact Location.var.inj same ▸ related.mem_keys inside
  refine stored.declare fresh ⟨_, .inl rfl, lookup_cons_self, fun place named => ?_⟩
  cases named
  exact state.get_set_self (.var name) value.bits

/-- The declaration of an array. -/
theorem declareArray (fresh : name ∉ bindings.map Prod.fst) (owned : function.owns name = true)
    (type : DataType) (size : Nat) :
    Related function ((name, .array name type) :: bindings)
      { world with scopes := (name, .array type size fun _ => none) :: world.scopes } state :=
  related.declare fresh ⟨lookup_cons_self, owned, fun _ _ written => by cases written⟩

/-- The assignment of a variable of the function. -/
theorem assign {value : Value}
    (shape : operand = .var name value.type ∨ operand = .param name value.type)
    (bound : bindings.lookup name = some (.direct operand))
    (named : operand.location? = some place) :
    Related function bindings
      { world with scopes := world.scopes.update name (.scalar value) }
      (state.set place value.bits) := by
  have home : place = .var name ∨ place = .param name := by
    cases shape with
    | inl same => subst same; cases named; exact .inl rfl
    | inr same => subst same; cases named; exact .inr rfl
  refine ⟨?_, ?_, ?_, ?_⟩
  · cases home with
    | inl same | inr same => subst same; exact related.globals
  · rw [state.pending_set]
    exact related.pending
  · rw [Source.names_update]
    exact related.distinct
  · intro other slot member
    cases mem_update member with
    | inl same =>
      obtain ⟨rfl, rfl⟩ := same
      refine ⟨operand, shape, bound, fun found named' => ?_⟩
      cases named.symm.trans named'
      exact state.get_set_self place value.bits
    | inr old =>
      refine (related.held other slot old.2).set value.bits ?_
      cases home with
      | inl same =>
        subst same
        exact ⟨fun same => old.1 (Location.var.inj same).symm, Location.noConfusion⟩
      | inr same =>
        subst same
        exact ⟨Location.noConfusion, fun same => old.1 (Location.param.inj same).symm⟩

theorem assignElement {array : String} {type : DataType} {size : Nat}
    {contents : Word → Option Word}
    (found : world.scopes.lookup array = some (.array type size contents)) (index bits : Word) :
    Related function bindings
      { world with scopes := world.scopes.update array (.array type size fun position =>
          if position = index then some bits else contents position) }
      (state.setElement true array index bits) where
  globals := related.globals
  pending := related.pending
  distinct := (Source.names_update ..).symm ▸ related.distinct
  held other slot member := by
    have arrays (name : String) (position : Word) :
        (state.setElement true array index bits).locals.arrays name position =
          if name = array ∧ position = index then bits else state.locals.arrays name position :=
      rfl
    cases mem_update member with
    | inl same =>
      obtain ⟨rfl, rfl⟩ := same
      obtain ⟨bound, owned, holds⟩ := related.held_of_lookup found
      refine ⟨bound, owned, fun position written given => ?_⟩
      dsimp only at given
      rw [arrays]
      by_cases equal : position = index
      · rw [if_pos equal] at given
        rw [if_pos ⟨rfl, equal⟩]
        exact Option.some.inj given
      · rw [if_neg equal] at given
        rw [if_neg fun both => equal both.2]
        exact holds position written given
    | inr old =>
      refine (related.held other slot old.2).imp id (fun _ _ => state.get_setElement ..) ?_
      funext position
      rw [arrays, if_neg fun both => old.1 both.1]

/-- A change of the shared memory on both sides. -/
theorem setGlobals (globals : Globals) :
    Related function bindings { world with globals } { state with globals } where
  globals := rfl
  pending := related.pending
  distinct := related.distinct
  held name slot member := (related.held name slot member).keeps (.setGlobal 0 state globals)

theorem assignGlobal (name : String) (bits : Word) :
    Related function bindings
      { world with globals := { world.globals with
          scalars := fun other => if other = name then bits else world.globals.scalars other } }
      (state.set (.global name) bits) := by
  rw [← related.globals]
  exact related.setGlobals _

theorem assignGlobalElement (array : String) (index bits : Word) :
    Related function bindings
      { world with globals := { world.globals with
          arrays := fun other position => if other = array ∧ position = index then bits
            else world.globals.arrays other position } }
      (state.setElement false array index bits) := by
  rw [← related.globals]
  exact related.setGlobals _

end Related

end ArmBackend.Ir
