import ArmBackend.Machine.Symbol
import ArmBackend.Proofs.Passes.Sweeps

/-!
# Passes keep the types at which values are consumed

What is printed, passed, returned and stored is never dropped, and its operand changes only
where a load is forwarded.  The operand that is then read has the type of the stored value,
and the dropped load had the type of its variable.  So the types stay where every load gives
the type of the value that was last stored at its place.
-/

namespace ArmBackend.Ir

open List Option

/-- Operations that consume the value of their first source. -/
def Opcode.consumes : Opcode → Bool
  | .print | .println | .arg | .ret | .store | .arrayStore => true
  | _ => false

/-- What an instruction does that matters for the types of consumed values. -/
inductive Traffic where
  | consumes (opcode : Opcode) (place : Option Location) (type : Option DataType)
  | loads (place : Option Location) (type : DataType)
deriving DecidableEq

namespace Instr

/-- The variable that a load reads. -/
def loaded? (instr : Instr) : Option Location :=
  (instr.src1.filter Operand.isVariable).bind Operand.location?

def traffic? (instr : Instr) : Option Traffic :=
  if instr.opcode.consumes then
    some (.consumes instr.opcode instr.defined (instr.src1.map Operand.type))
  else if instr.opcode = .load then some (.loads instr.loaded? (typeOf instr.dest))
  else none

end Instr

def trafficOf (code : List Instr) : List Traffic :=
  code.filterMap Instr.traffic?

/-- The operations of the code that consume values, with the types of the values. -/
def consumed (code : List Instr) : List (Opcode × Option DataType) :=
  (code.filter fun instr => instr.opcode.consumes).map fun instr =>
    (instr.opcode, instr.src1.map Operand.type)

/-- The types of the values that were last stored at places. -/
abbrev StoredTypes := Location → Option DataType

namespace StoredTypes

def empty : StoredTypes := fun _ => none

/-- Behind an operation that consumes a value. -/
def after (held : StoredTypes) (opcode : Opcode) (place : Option Location)
    (type : Option DataType) : StoredTypes :=
  fun spot => if opcode = .store ∧ place = some spot then type else held spot

end StoredTypes

/-- Every load gives the type of the value that was last stored at its place, if any was. -/
def Fits (held : StoredTypes) : List Traffic → Prop
  | [] => True
  | .loads place type :: rest =>
    (∀ spot ∈ place, ∀ last ∈ held spot, last = type) ∧ Fits held rest
  | .consumes opcode place type :: rest => Fits (held.after opcode place type) rest

/-- In the order of the code, every load gives the type of the value last stored. -/
def Function.LoadsFit (function : Function) : Prop :=
  Fits .empty (trafficOf function.code)

variable {type : DataType} {instr : Instr} {rest code : List Instr} {place : Location}
  {operand : Operand} {renames : Prop} {scan : Scan} {held : StoredTypes}

theorem fits_tail (fits : Fits held (trafficOf (instr :: rest))) :
    ∃ held, Fits held (trafficOf rest) := by
  rw [trafficOf, filterMap_cons] at fits
  cases traffic : instr.traffic? with
  | none => rw [traffic] at fits; exact ⟨held, fits⟩
  | some item =>
    rw [traffic] at fits
    cases item with
    | consumes opcode place type => exact ⟨_, fits⟩
    | loads place type => exact ⟨held, fits.2⟩

/-! ## Dropping loads -/

/-- The second traffic is the first one without some loads. -/
inductive Sheds : List Traffic → List Traffic → Prop where
  | nil : Sheds [] []
  | keep (item : Traffic) {before after : List Traffic} (more : Sheds before after) :
      Sheds (item :: before) (item :: after)
  | drop (place : Option Location) (type : DataType) {before after : List Traffic}
      (more : Sheds before after) : Sheds (.loads place type :: before) after

namespace Sheds

theorem refl (traffic : List Traffic) : Sheds traffic traffic := by
  induction traffic with
  | nil => exact .nil
  | cons item rest ih => exact .keep item ih

theorem fits {before after : List Traffic} (sheds : Sheds before after) (fits : Fits held before) :
    Fits held after := by
  induction sheds generalizing held with
  | nil => trivial
  | keep item more ih =>
    cases item with
    | consumes opcode place type => exact ih fits
    | loads place type => exact ⟨fits.1, ih fits.2⟩
  | drop place type more ih => exact ih fits.2

end Sheds

/-- The consumed value in a piece of traffic. -/
def Traffic.consumed? : Traffic → Option (Opcode × Option DataType)
  | consumes opcode _ type => some (opcode, type)
  | loads _ _ => none

theorem Sheds.consumed {before after : List Traffic} (sheds : Sheds before after) :
    after.filterMap Traffic.consumed? = before.filterMap Traffic.consumed? := by
  induction sheds with
  | nil => rfl
  | keep item more ih => rw [filterMap_cons, filterMap_cons, ih]
  | drop place type more ih => rw [ih]; rfl

theorem consumed_eq (code : List Instr) :
    consumed code = (trafficOf code).filterMap Traffic.consumed? := by
  rw [trafficOf, filterMap_filterMap, consumed]
  induction code with
  | nil => rfl
  | cons instr rest ih =>
    rw [filterMap_cons, ← ih]
    rw [filter_cons]
    split_ifs with consumes
    · rw [map_cons, Instr.traffic?, if_pos consumes]
      rfl
    · rw [Instr.traffic?, if_neg consumes]
      split_ifs <;> rfl

/-- The instruction keeps its traffic, or it consumes nothing and has no traffic any more. -/
def Instr.Calms (instr revised : Instr) : Prop :=
  revised.traffic? = instr.traffic? ∨ instr.opcode.consumes = false ∧ revised.traffic? = none

/-- The second code has the traffic of the first one, without some loads. -/
def Condenses (code revised : List Instr) : Prop :=
  Sheds (trafficOf code) (trafficOf revised)

namespace Condenses

theorem refl (code : List Instr) : Condenses code code :=
  Sheds.refl _

variable {rest rest' : List Instr} (more : Condenses rest rest')
include more

theorem drop (idle : instr.opcode.consumes = false) : Condenses (instr :: rest) rest' := by
  rw [Condenses, trafficOf, filterMap_cons, Instr.traffic?, if_neg (Bool.eq_false_iff.mp idle)]
  split_ifs with load
  · exact .drop _ _ more
  · exact more

theorem cons {revised : Instr} (calms : instr.Calms revised) :
    Condenses (instr :: rest) (revised :: rest') := by
  rcases calms with same | ⟨idle, silent⟩
  · rw [Condenses, trafficOf, trafficOf, filterMap_cons, filterMap_cons, same]
    cases instr.traffic? with
    | none => exact more
    | some item => exact .keep item more
  · have later : Condenses rest (revised :: rest') := by
      rwa [Condenses, trafficOf, trafficOf, filterMap_cons, silent]
    exact later.drop idle

end Condenses

/-! ## Passes that rename nothing -/

theorem Opcode.not_consumes_of_not_isStanding {opcode : Opcode} (loose : opcode.isStanding = false) :
    opcode.consumes = false := by
  cases opcode <;> first | rfl | cases loose

theorem Instr.Turns.calms {turned : Instr} (turns : instr.Turns renames turned)
    (steady : ¬ renames) : instr.Calms turned := by
  rcases turns.steady with renamed | rfl | ⟨loose, other⟩
  · exact absurd renamed steady
  · exact .inl rfl
  · have idle := Opcode.not_consumes_of_not_isStanding (turns.standing.trans loose)
    refine .inr ⟨Opcode.not_consumes_of_not_isStanding loose, ?_⟩
    rw [traffic?, idle, if_neg Bool.false_ne_true, if_neg other]

theorem Trims.condenses {free : String → Prop} {trimmed : List Instr}
    (trims : Trims renames free code trimmed) (steady : ¬ renames) : Condenses code trimmed := by
  induction trims with
  | nil => exact .refl []
  | keep turns target more ih => exact ih.cons (turns.calms steady)
  | drop loose unmarked more ih => exact ih.drop (Opcode.not_consumes_of_not_isStanding loose)

/-! ## Forwarding loads -/

theorem Operand.not_isVariable_of_isFixed (fixed : operand.isFixed = true) :
    operand.isVariable = false := by
  cases operand with
  | temp _ _ | immediate _ _ => rfl
  | _ => cases fixed

theorem Operand.isVariable_of_location? (named : operand.location? = some place)
    (apart : ∀ name, place ≠ .temp name) : operand.isVariable = true := by
  cases operand with
  | var _ _ | param _ _ | global _ _ => rfl
  | temp name _ => exact absurd (Option.some.inj named).symm (apart name)
  | _ => cases named

/-- A store goes to a variable. -/
theorem Instr.Formed.of_store (formed : instr.Formed scan) (store : instr.opcode = .store) :
    ∃ place, instr.dest = some place ∧ place.isVariable = true := by
  cases formed with
  | stores place _ written named => exact ⟨place, written, named⟩
  | computes _ opcode | fills _ _ _ opcode | reserves _ _ opcode | calls opcode | passes opcode
  | plain opcode => rw [store] at opcode; cases opcode

theorem Instr.Formed.of_arrayStore (formed : instr.Formed scan)
    (fills : instr.opcode = .arrayStore) :
    ∃ array index type, instr.dest = some (.element array index type) := by
  cases formed with
  | fills array index type _ written => exact ⟨array, index, type, written⟩
  | computes _ opcode | stores _ opcode | reserves _ _ opcode | calls opcode | passes opcode
  | plain opcode => rw [fills] at opcode; cases opcode

theorem Aliases.src1_instr (aliases : Aliases) (instr : Instr) :
    (aliases.instr instr).src1 = instr.src1.map aliases.operand := by
  rw [aliases.instr_eq]

/-- Renamed temporaries are read with their types. -/
def Aliases.KeepsTypes (aliases : Aliases) (scan : Scan) : Prop :=
  ∀ name type, scan.ready name → scan.types (.temp name) = some type →
    (aliases.operand (.temp name type)).type = type

namespace Aliases.Links

variable {aliases : Aliases} {scan other : Scan} (links : aliases.Links scan other)
include links

theorem filter_isVariable {source : Option Operand}
    (regular : ∀ operand ∈ source, operand.Regular scan) :
    (source.map aliases.operand).filter Operand.isVariable = source.filter Operand.isVariable := by
  cases source with
  | none => rfl
  | some operand =>
    have here := regular operand rfl
    cases operand with
    | temp name type =>
      obtain ⟨_, _, fixed⟩ := links.ready name type here.1 here.2
      rw [map_some, filter_some, Operand.not_isVariable_of_isFixed fixed]
      rfl
    | element array index type =>
      rw [map_some, aliases.operand_element]
      rfl
    | _ =>
      rw [map_some, links.operand_of_isSteady rfl]

variable (typed : aliases.KeepsTypes scan)
include typed

theorem type_operand (regular : operand.Regular scan) :
    (aliases.operand operand).type = operand.type := by
  cases operand with
  | temp name type => exact typed name type regular.1 regular.2
  | element array index type => rw [aliases.operand_element]; rfl
  | _ =>
    rw [links.operand_of_isSteady rfl]

theorem map_type (regular : instr.Regular scan) :
    (instr.src1.map aliases.operand).map Operand.type = instr.src1.map Operand.type := by
  cases source : instr.src1 with
  | none => rfl
  | some operand =>
    have here := regular.inputs operand (Instr.mem_inputs_of_src1 source)
    exact congrArg some (links.type_operand typed here)

theorem traffic?_instr (regular : instr.Regular scan) :
    (aliases.instr instr).traffic? = instr.traffic? := by
  have types := links.map_type typed regular
  have place := links.filter_isVariable fun operand read =>
    regular.inputs operand (Instr.mem_inputs_of_src1 read)
  rw [Instr.traffic?, Instr.traffic?, Instr.loaded?, Instr.loaded?, Instr.defined, Instr.defined,
    aliases.instr_eq]
  dsimp only
  rw [types, place]
  by_cases fills : instr.opcode = .arrayStore
  · -- An element has no place of its own, whatever its index is renamed to.
    obtain ⟨array, index, type, written⟩ := regular.formed.of_arrayStore fills
    rw [if_pos fills, written, map_some, aliases.operand_element]
    rfl
  · rw [if_neg fills]

theorem keepsTypes_after (regular : instr.Regular scan) :
    aliases.KeepsTypes (scan.after instr) := by
  intro name type ready known
  rcases (Scan.known_after ready known).2 with new | ⟨_, before, earlier⟩
  · rw [links.operand_of_fresh (regular.formed.fresh_of_written? new)]
    rfl
  · exact typed name type before earlier

variable {store load : Instr} (one : store.Regular scan) (two : load.Regular (scan.after store))
  {place : Location} {value : Operand}
  (forwards : (aliases.instr store).Forwards (aliases.instr load) place value)
include one two forwards

theorem type_of_forwards (fits : Fits held (trafficOf (store :: load :: rest))) :
    value.type = Instr.typeOf load.dest := by
  have isStore : store.opcode = .store := aliases.opcode_instr store ▸ forwards.isStore
  have isLoad : load.opcode = .load := aliases.opcode_instr load ▸ forwards.isLoad
  obtain ⟨spot, defined, found⟩ := forwards.same
  have stored : store.src1.map Operand.type = some value.type := by
    rw [← links.map_type typed one]
    rw [← aliases.src1_instr, forwards.stored]
    rfl
  have written : store.defined = some spot := by
    rw [Instr.defined, aliases.instr_eq, isStore] at defined
    exact defined
  have apart : ∀ name, spot ≠ .temp name := by
    obtain ⟨target, dest, named⟩ := one.formed.of_store isStore
    obtain ⟨other, there, apart⟩ := Operand.exists_location?_of_isVariable named
    rw [Instr.defined, dest, bind_some, there] at written
    exact Option.some.inj written ▸ apart
  have read : load.loaded? = some spot := by
    rw [Instr.loaded?, ← (links.keep one).filter_isVariable fun operand read =>
      two.inputs operand (Instr.mem_inputs_of_src1 read)]
    obtain ⟨source, renamed, there⟩ := bind_eq_some_iff.mp found
    rw [aliases.src1_instr] at renamed
    rw [renamed, filter_some, Operand.isVariable_of_location? there apart, if_pos rfl]
    exact there
  have storeTraffic : store.traffic? =
      some (.consumes .store (some spot) (some value.type)) := by
    rw [Instr.traffic?, isStore, written, stored]
    rfl
  have loadTraffic : load.traffic? = some (.loads (some spot) (Instr.typeOf load.dest)) := by
    rw [Instr.traffic?, isLoad, read]
    rfl
  rw [trafficOf, filterMap_cons, storeTraffic, filterMap_cons, loadTraffic] at fits
  exact fits.1 spot rfl value.type (if_pos ⟨rfl, rfl⟩)

theorem keepsTypes_drop (same : value.type = Instr.typeOf load.dest) :
    (aliases.add place value).KeepsTypes ((scan.after store).after load) := by
  intro temp type ready known
  rcases links.operand_add_of_known one two forwards ready known with
    ⟨_, written, renamed⟩ | ⟨_, before, earlier, renamed⟩ <;> rw [renamed]
  · rw [same, written]
    rfl
  · exact links.keepsTypes_after typed one temp type before earlier

end Aliases.Links

theorem Aliases.Ahead.condenses {aliases : Aliases} {other : Scan} {rest' : List Instr}
    (ahead : aliases.Ahead scan other rest rest') (typed : aliases.KeepsTypes scan)
    (fits : Fits held (trafficOf rest)) : Condenses rest rest' := by
  induction ahead generalizing held with
  | nil => exact .refl []
  | keep links here _ ih =>
    obtain ⟨_, after⟩ := fits_tail fits
    exact (ih (links.keepsTypes_after typed here) after).cons (.inl (links.traffic?_instr typed here))
  | @drop aliases _ _ _ load _ _ _ _ links here next forwards _ ih =>
    obtain ⟨_, between⟩ := fits_tail fits
    obtain ⟨_, after⟩ := fits_tail between
    have isLoad : load.opcode = .load := aliases.opcode_instr load ▸ forwards.isLoad
    have same := links.type_of_forwards typed here next forwards fits
    have later := ih (links.keepsTypes_drop typed here next forwards same) after
    exact (later.drop (by rw [isLoad]; rfl)).cons (.inl (links.traffic?_instr typed here))

/-! ## All passes -/

/-- The operations of the code that consume values. -/
def consumers (code : List Instr) : List Opcode :=
  (consumed code).map Prod.fst

theorem Condenses.consumed {revised : List Instr} (condenses : Condenses code revised) :
    consumed revised = consumed code := by
  rw [consumed_eq, consumed_eq, Sheds.consumed condenses]

theorem consumers_eq (code : List Instr) :
    consumers code = ((effects code).map Instr.opcode).filter Opcode.consumes := by
  rw [consumers, consumed, List.map_map, effects, List.filter_map, List.filter_filter]
  refine congrArg (List.map _) (filter_congr fun instr _ => ?_)
  rw [Function.comp_apply]
  cases instr.opcode <;> rfl

theorem Function.consumers_after (passes : List Pass) (function : Function) :
    consumers (function.after passes).code = consumers function.code := by
  have kept : (effects (function.after passes).code).map Instr.opcode =
      (effects function.code).map Instr.opcode := by
    rw [← forall₂_eq_eq_eq, forall₂_map_left_iff, forall₂_map_right_iff]
    exact (function.effects_after passes).flip.imp fun _ _ keeps => keeps.opcode
  rw [consumers_eq, consumers_eq, kept]

variable {strict : Prop}

theorem Regular.condenses (regular : Regular (.empty strict) code)
    (fits : Fits .empty (trafficOf code)) (pass : Pass) :
    Condenses code (pass.revise code).code := by
  by_cases forwarding : pass = .loadForwarding
  · subst forwarding
    exact regular.ahead.condenses (fun _ _ ready => ready.elim) fits
  · exact (pass.trims code).condenses forwarding

namespace Function.Sound

variable {function : Function} (sound : function.Sound strict)
include sound

theorem consumed_after (fits : function.LoadsFit) (passes : List Pass) :
    consumed (function.after passes).code = consumed function.code := by
  induction passes generalizing function with
  | nil => rfl
  | cons pass rest ih =>
    have condenses := sound.regular.condenses fits pass
    exact (ih (sound.run pass) (Sheds.fits condenses fits)).trans condenses.consumed

end Function.Sound

/-! ## Where loads fit -/

theorem Instr.Formed.types_after (formed : instr.Formed scan) (known : scan.types place = some type)
    (other : instr.opcode = .store → instr.defined ≠ some place) :
    (scan.after instr).types place = some type := by
  rw [Scan.types_after, if_neg, known]
  intro written
  rcases formed.new_or_stored written with new | ⟨store, named, _⟩
  · rw [known] at new
    cases new
  · exact other store named

theorem Instr.Regular.types_after_store (regular : instr.Regular scan) (strict : scan.strict)
    (store : instr.opcode = .store) (named : instr.defined = some place)
    (stored : instr.src1.map Operand.type = some type) :
    (scan.after instr).types place = some type := by
  obtain ⟨value, source, rfl⟩ := map_eq_some_iff.mp stored
  have typed := regular.typed strict
  rw [isTyped, store, source] at typed
  rw [defined] at named
  rw [Scan.types_after, written?_of_store store, if_pos named]
  exact congrArg some (of_decide_eq_true typed).symm

theorem Instr.Regular.type_of_load (regular : instr.Regular scan) (strict : scan.strict)
    (load : instr.opcode = .load) (read : instr.loaded? = some place)
    (known : scan.types place = some type) : type = typeOf instr.dest := by
  obtain ⟨source, found, named⟩ := bind_eq_some_iff.mp read
  have there : instr.src1 = some source := (filter_eq_some_iff.mp found).1
  have typed := regular.typed strict
  rw [isTyped, load, there] at typed
  rw [(regular.inputs source (mem_inputs_of_src1 there)).type_eq strict named known]
  exact of_decide_eq_true typed

theorem Regular.fits (strict : scan.strict) (regular : Regular scan code)
    (known : ∀ place type, held place = some type → scan.types place = some type) :
    Fits held (trafficOf code) := by
  induction code generalizing scan held with
  | nil => trivial
  | cons instr rest ih =>
    obtain ⟨here, later⟩ := regular
    have strictAfter : (scan.after instr).strict := scan.strict_after instr ▸ strict
    rw [trafficOf, filterMap_cons, Instr.traffic?]
    split_ifs with consumes load
    · refine ih strictAfter later fun place type found => ?_
      unfold StoredTypes.after at found
      split_ifs at found with stored
      · exact here.types_after_store strict stored.1 stored.2 found
      · exact here.formed.types_after (known place type found)
          fun store defined => stored ⟨store, defined⟩
    · refine ⟨fun spot read last found => ?_, ih strictAfter later fun place type found => ?_⟩
      · exact here.type_of_load strict load read (known spot last found)
      · exact here.formed.types_after (known place type found) (by rw [load]; nofun)
    · refine ih strictAfter later fun place type found => ?_
      refine here.formed.types_after (known place type found) fun store => ?_
      rw [store] at consumes
      exact absurd rfl consumes

end ArmBackend.Ir
