import ArmBackend.Proofs.Lowering.Ownership

/-!
# Operands in code

The values that code computes with are temporaries, literals and what names stand for, and the
places that it loads from and stores to are elements and what names stand for.  What holds of
these holds of all operands in the code of a tree.  So the code names no variables but those that
the tree uses or declares, and has elements of those arrays only that the tree has elements of.
-/

namespace ArmBackend.Ir

open List

/-- One property holds of all values that code can have, and another one of all places. -/
structure Admits (words : Vocabulary) (holds stands : Operand → Prop) : Prop where
  value : ∀ {operand}, holds operand → stands operand
  temp : ∀ name type, holds (.temp name type)
  literal : ∀ value type, value.isFloat = type.isFloat → holds (.immediate value type)
  label : ∀ name type, holds (.label name type)
  element : ∀ {array index} type, array ∈ words.names ∧ array ∈ words.arrays → holds index →
    stands (.element array index type)
  global : ∀ {name} type, name ∈ words.names → stands (.global name type)

/-- The properties hold of what names stand for. -/
def Place.Gives (place : Place) (words : Vocabulary) (holds stands : Operand → Prop)
    (bindings : Bindings) : Prop :=
  ∀ name ∈ words.names, match place.resolve bindings name with
    | .shared global => stands global
    | storage => holds storage.operand

/-- The operands are values, but for an element or a place that is loaded from or stored to. -/
def Instr.Made (holds stands : Operand → Prop) (instr : Instr) : Prop :=
  Every (fun operand => holds operand ∨ stands operand ∧ (operand.isElement = true ∨
    instr.opcode = .load ∧ instr.src1 = some operand ∨
      instr.opcode = .store ∧ instr.dest = some operand)) instr.operands

section

variable {words : Vocabulary} {holds stands : Operand → Prop} {instr : Instr}

theorem Instr.Made.plain (every : Every holds instr.operands) : instr.Made holds stands :=
  fun operand member => .inl (every operand member)

variable (admits : Admits words holds stands)
include admits

theorem Instr.Made.every (made : instr.Made holds stands) : Every stands instr.operands :=
  fun operand member => (made operand member).elim admits.value And.left

/-- What has a name can be a value. -/
theorem Admits.gives (place : Place) {bindings : Bindings} (own : bindings.Own)
    (located : ∀ {operand spot}, operand.location? = some spot → spot.name ∈ words.names →
      holds operand) : place.Gives words holds stands bindings := by
  intro name word
  have named := place.named_resolve own name
  obtain ⟨spot, there⟩ := named.location?
  have fine := located there (named.name_eq there ▸ word)
  split
  · next same =>
      rw [same] at fine
      exact admits.value fine
  · exact fine

variable {place : Place} {arrays : List String} {strict : Prop} {known last : List Operand}
  {uses : Uses} {draft final : Draft} {code : List Instr}

theorem Evaluates.made {bindings : Bindings} {context : Context} {lowered : Lowered}
    (step : Evaluates place bindings strict words context known lowered uses)
    (gives : place.Gives words holds stands bindings) (every : Every holds known) :
    Every (Instr.Made holds stands) lowered.code ∧ holds lowered.operand := by
  have temp (type : DataType) : holds (context.newTemp type).1 := admits.temp _ _
  cases step with
  | literal value type kind => exact ⟨.nil, admits.literal value type kind⟩
  | @read line name word =>
    have given := gives name word
    cases stored : place.resolve bindings name with
    | direct operand | array array element =>
      rw [stored] at given
      exact ⟨.nil, given⟩
    | shared global =>
      rw [stored] at given
      exact ⟨.one (.two (.inl (temp _)) (.inr ⟨given, .inr (.inl ⟨rfl, rfl⟩)⟩)), temp _⟩
  | unary line type isPure there =>
    exact ⟨.one (.plain (.two (temp type) (every _ there))), temp type⟩
  | binary line type isBinary one two =>
    exact ⟨.one (.plain (.three (temp type) (every _ one) (every _ two))), temp type⟩
  | string => exact ⟨.one (.plain (.two (admits.temp _ _) (admits.label _ _))), admits.temp _ _⟩
  | element line word there =>
    have element type := admits.element type word (every _ there)
    exact ⟨.one (.two (.inl (temp _)) (.inr ⟨element _, .inl rfl⟩)), temp _⟩
  | call line callee there =>
    have passed : Every (Instr.Made holds stands) (Lowered.argCode line 0 _) :=
      .argCode (fun _ _ here => .plain (.two here (admits.literal _ _ rfl))) 0
        (every.subset there)
    rw [Lowered.call]
    split
    · exact ⟨passed.append (.one .nil), admits.literal _ _ rfl⟩
    · exact ⟨passed.append (.one (.plain (.one (temp _)))), temp _⟩

theorem Emits.made (emits : Emits place arrays strict words draft known code uses final last)
    (gives : place.Gives words holds stands draft.bindings)
    (gives' : place.Gives words holds stands final.bindings) (every : Every holds known) :
    Every (Instr.Made holds stands) code ∧ Every holds last := by
  have stores {target value : Operand} (line : Nat) (place : stands target)
      (there : value ∈ known) :
      ((Instr.store target value).atLine line).Made holds stands :=
    .two (.inr ⟨place, .inr (.inr ⟨rfl, rfl⟩)⟩) (.inl (every value there))
  have declares {name : String} {storage : Storage} (word : name ∈ words.names)
      (given : place.Gives words holds stands ((name, storage) :: draft.bindings)) :=
    (place.resolve_cons name storage name).trans (if_pos rfl) ▸ given name word
  cases emits with
  | forget fewer => exact ⟨.nil, every.subset fewer⟩
  | relabel => exact ⟨.nil, every⟩
  | evaluate step =>
    obtain ⟨made, here⟩ := step.made admits gives every
    exact ⟨made, every.cons here⟩
  | store line word stored there =>
    refine ⟨.one (stores line ?_ there), .nil⟩
    have given := gives _ word
    rcases stored with stored | stored <;> rw [stored] at given
    · exact admits.value given
    · exact given
  | declare line word there =>
    exact ⟨.one (.plain (.two (declares word gives') (every _ there))), .nil⟩
  | reserve line size word =>
    exact ⟨.one (.plain (.two (declares word gives') (admits.literal _ _ rfl))), .nil⟩
  | fill line word there there' =>
    have element type := admits.element type word (every _ there)
    exact ⟨.one (.two (.inr ⟨element _, .inl rfl⟩) (.inl (every _ there'))), .nil⟩
  | begin line word shared there => exact ⟨.one (stores line (admits.global _ word) there), .nil⟩
  | mark | jump | enter | exit => exact ⟨.one .nil, .nil⟩
  | test line name there | print line newline there =>
    exact ⟨.one (.plain (.one (every _ there))), .nil⟩
  | @leave line value there =>
    refine ⟨.one (.plain ?_), .nil⟩
    cases value with
    | none => exact .nil
    | some value => exact .one (every value (there value rfl))

/-- Bindings are only added, so it is enough to know of those at the end. -/
theorem Writes.made (writes : Writes place arrays strict words draft known code uses final last)
    (own : Bindings.Own draft.bindings)
    (gives : ∀ bindings : Bindings, bindings.Own → bindings <:+ final.bindings →
      place.Gives words holds stands bindings) (every : Every holds known) :
    Every (Instr.Made holds stands) code := by
  induction writes with
  | refl => exact .nil
  | step emits more ih =>
    have own' := emits.own own
    obtain ⟨made, later⟩ := emits.made admits (gives _ own (emits.suffix.trans more.suffix))
      (gives _ own' more.suffix) every
    exact made.append (ih own' gives later)

end

/-! ## Names -/

/-- The names in an operand are known. -/
def Operand.Within (words : Vocabulary) : Operand → Prop
  | var name _ | param name _ | global name _ => name ∈ words.names
  | element array index _ => array ∈ words.names ∧ array ∈ words.arrays ∧ index.Within words
  | _ => True

theorem admits_within (words : Vocabulary) :
    Admits words (Operand.Within words) (Operand.Within words) where
  value := id
  temp _ _ := trivial
  literal _ _ _ := trivial
  label _ _ := trivial
  element _ word there := ⟨word.1, word.2, there⟩
  global _ word := word

theorem Operand.within_of_location? {words : Vocabulary} {operand : Operand} {place : Location}
    (named : operand.location? = some place) (known : place.name ∈ words.names) :
    operand.Within words := by
  cases operand <;> cases named <;> first | exact known | trivial

end ArmBackend.Ir
