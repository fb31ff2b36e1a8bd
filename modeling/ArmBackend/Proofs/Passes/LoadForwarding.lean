import ArmBackend.Ir.Pass.LoadForwarding
import ArmBackend.Proofs.Passes.Thinning

/-!
# Forwarding loads keeps the run

A temporary that a dropped load would have filled is renamed to the value that was
stored.  Renamed temporaries were written before, and the values that they are renamed to
are literals or temporaries that were written before too; so nothing that is written later
changes them, and the renamed operand has the value of the temporary as long as that may
be read.
-/

namespace ArmBackend.Ir

open List Option

/-- Renamed places and what is read instead, the earliest first. -/
abbrev Aliases := List (Location × Operand)

namespace Aliases

variable (aliases : Aliases)

def operand (operand : Operand) : Operand :=
  aliases.foldl (fun operand entry => Operand.rename entry.1 entry.2 operand) operand

def instr (instr : Instr) : Instr :=
  aliases.foldl (fun instr entry => instr.renameReads entry.1 entry.2) instr

/-- One alias more. -/
def add (place : Location) (value : Operand) : Aliases :=
  aliases ++ [(place, value)]

theorem operand_add (place : Location) (value operand : Operand) :
    (aliases.add place value).operand operand = Operand.rename place value (aliases.operand operand) :=
  foldl_append ..

/-- Aliases an instruction renames what it reads. -/
theorem instr_eq (instr : Instr) :
    aliases.instr instr = { instr with
      src1 := instr.src1.map aliases.operand
      src2 := instr.src2.map aliases.operand
      dest := if instr.opcode = .arrayStore then instr.dest.map aliases.operand
        else instr.dest } := by
  induction aliases generalizing instr with
  | nil =>
    have same : operand [] = id := rfl
    simp [Aliases.instr, same]
  | cons entry rest ih =>
    have inner : operand (entry :: rest) = operand rest ∘ Operand.rename entry.1 entry.2 := rfl
    have outer : Aliases.instr (entry :: rest) instr =
      Aliases.instr rest (instr.renameReads entry.1 entry.2) := rfl
    rw [outer, ih, inner]
    simp only [Instr.renameReads, Option.map_map]
    split <;> simp

theorem operand_element (array : String) (index : Operand) (type : DataType) :
    aliases.operand (.element array index type) =
      .element array (aliases.operand index) type := by
  induction aliases generalizing index with
  | nil => rfl
  | cons entry rest ih => exact ih _

/-- An operand that is not renamed stays. -/
theorem operand_of_apart {operand : Operand}
    (apart : ∀ entry ∈ aliases, Operand.rename entry.1 entry.2 operand = operand) :
    aliases.operand operand = operand := by
  induction aliases with
  | nil => rfl
  | cons entry rest ih =>
    rw [Aliases.operand, foldl_cons, apart entry (mem_cons_self ..)]
    exact ih fun other member => apart other (mem_cons_of_mem _ member)

theorem mem_inputs_instr {aliases : Aliases} {instr : Instr} {operand : Operand}
    (member : operand ∈ (aliases.instr instr).inputs) :
    ∃ source ∈ instr.inputs, operand = aliases.operand source := by
  rw [aliases.instr_eq] at member
  simp only [Instr.inputs, Instr.sources, mem_append, mem_toList,
    map_eq_some_iff] at member
  rcases member with (⟨source, read, rfl⟩ | ⟨source, read, rfl⟩) | member
  · exact ⟨source, Instr.mem_inputs_of_src1 read, rfl⟩
  · exact ⟨source, Instr.mem_inputs_of_src2 read, rfl⟩
  · split at member
    · next opcode =>
        obtain ⟨source, written, rfl⟩ := map_eq_some_iff.mp (mem_toList.mp member)
        exact ⟨source, by simp [Instr.inputs, opcode, written], rfl⟩
    · cases member

theorem written?_instr (instr : Instr) : (aliases.instr instr).written? = instr.written? := by
  rw [Instr.written?, Instr.written?, aliases.instr_eq]
  dsimp only
  split
  · next writes =>
      split
      · next store => rw [store] at writes; cases writes
      · rfl
  · rfl

theorem opcode_instr (instr : Instr) : (aliases.instr instr).opcode = instr.opcode := by
  rw [aliases.instr_eq]

end Aliases

/-- Neither a temporary nor an element. -/
def Operand.isSteady : Operand → Bool
  | .temp .. | .element .. => false
  | _ => true

variable {scan : Scan} {name : String} {store load : Instr} {place : Location} {value : Operand}
  {aliases : Aliases} {code : List Instr}

theorem Operand.Regular.rename_of_fresh {operand : Operand}
    (regular : operand.Regular scan) (fixed : operand.isFixed = true)
    (fresh : scan.types (.temp name) = none) (value : Operand) :
    Operand.rename (.temp name) value operand = operand := by
  cases operand with
  | temp other type =>
    refine if_neg ?_
    rintro same
    cases same
    exact some_ne_none type (regular.2.symm.trans fresh)
  | immediate literal type => rfl
  | _ => cases fixed

/-- A load that is forwarded, with the store in front of it. -/
structure Instr.Forwards (store load : Instr) (place : Location) (value : Operand) : Prop where
  isStore : store.opcode = .store
  isLoad : load.opcode = .load
  same : ∃ spot, store.defined = some spot ∧ load.src1.bind Operand.location? = some spot
  filled : load.defined = some place
  stored : store.src1 = some value
  fixed : value.isFixed = true

theorem Instr.forwards_of_forwarded?
    (found : store.forwarded? load = some (place, value)) : store.Forwards load place value := by
  unfold forwarded? at found
  split at found
  · next pair =>
      obtain ⟨isStore, isLoad, some, same⟩ := pair
      split at found
      · next one two =>
          cases found
          obtain ⟨spot, named⟩ := isSome_iff_exists.mp some
          unfold forwardable? at two
          split at two
          · next source =>
              split at two
              · next fixed =>
                  cases two
                  exact ⟨isStore, isLoad, ⟨spot, named, same ▸ named⟩, one, source, fixed⟩
              · cases two
          · cases two
      · cases found
  · cases found

/-- What was renamed, between the code before and the code behind the renaming. -/
structure Aliases.Links (aliases : Aliases) (scan other : Scan) : Prop where
  domain : ∀ entry ∈ aliases, ∃ name, entry.1 = .temp name ∧ scan.types (.temp name) ≠ none
  ready : ∀ name type, scan.ready name → scan.types (.temp name) = some type →
    (aliases.operand (.temp name type)).Regular other ∧
      (scan.strict → (aliases.operand (.temp name type)).type = type) ∧
      (aliases.operand (.temp name type)).isFixed = true
  places : ∀ place, (∀ name, place ≠ .temp name) → other.types place = scan.types place
  fresh : ∀ name, scan.types (.temp name) = none → other.types (.temp name) = none
  strict : other.strict = scan.strict

theorem Aliases.links_nil (strict : Prop) : Aliases.Links [] (.empty strict) (.empty strict) where
  domain entry member := by cases member
  ready name type ready := ready.elim
  places _ _ := rfl
  fresh _ _ := rfl
  strict := rfl

namespace Aliases.Links

variable {aliases : Aliases} {scan other : Scan} (links : aliases.Links scan other)
include links

/-- Only temporaries are renamed. -/
theorem operand_of_isSteady {operand : Operand} (steady : operand.isSteady = true) :
    aliases.operand operand = operand := by
  refine operand_of_apart aliases ?_
  intro entry member
  obtain ⟨name, same, _⟩ := links.domain entry member
  rw [same]
  cases operand with
  | temp _ _ | element _ _ _ => cases steady
  | _ => exact if_neg (by rintro ⟨⟩)

theorem operand_of_fresh {name : String} (fresh : scan.types (.temp name) = none)
    (type : DataType) : aliases.operand (.temp name type) = .temp name type := by
  refine operand_of_apart aliases ?_
  intro entry member
  obtain ⟨renamed, same, written⟩ := links.domain entry member
  rw [same]
  refine if_neg ?_
  rintro ⟨⟩
  exact written fresh

/-- What may be read may be read when it is renamed. -/
theorem operand {operand : Operand} (regular : operand.Regular scan) :
    (aliases.operand operand).Regular other ∧
      (scan.strict → (aliases.operand operand).type = operand.type) := by
  induction operand with
  | temp name type =>
    obtain ⟨allowed, same, _⟩ := links.ready name type regular.1 regular.2
    exact ⟨allowed, same⟩
  | element array index type ih =>
    rw [aliases.operand_element]
    exact ⟨(ih regular).1, fun _ => rfl⟩
  | immediate value type =>
    rw [links.operand_of_isSteady rfl]
    exact ⟨fun strict => regular (links.strict ▸ strict), fun _ => rfl⟩
  | label name type =>
    rw [links.operand_of_isSteady rfl]
    exact ⟨(by intro _ place named; cases named), fun _ => rfl⟩
  | var name type | param name type | global name type =>
    rw [links.operand_of_isSteady rfl]
    refine ⟨?_, fun _ => rfl⟩
    intro strict place named written type
    rw [links.places place (by cases named; intro name; exact Location.noConfusion)] at type
    exact regular (links.strict ▸ strict) place named written type

theorem typeOf_map (strict : scan.strict) {source : Option Operand}
    (regular : ∀ operand ∈ source, operand.Regular scan) :
    Instr.typeOf (source.map aliases.operand) = Instr.typeOf source := by
  cases source with
  | none => rfl
  | some operand => exact (links.operand (regular operand rfl)).2 strict

/-- A renamed instruction may stand in its place. -/
theorem instr {instr : Instr} (regular : instr.Regular scan) :
    (aliases.instr instr).Regular other := by
  have fresh {dest : Operand} (fresh : Instr.Fresh scan dest) : Instr.Fresh other dest := by
    obtain ⟨name, type, rfl, unwritten⟩ := fresh
    exact ⟨name, type, rfl, links.fresh name unwritten⟩
  have whole (opcode : instr.opcode ≠ .arrayStore) : (aliases.instr instr).dest = instr.dest := by
    rw [aliases.instr_eq]
    exact if_neg opcode
  have same := aliases.opcode_instr instr
  refine ⟨?_, ?_, ?_⟩
  · cases regular.formed with
    | computes dest opcode written unwritten =>
      exact .computes dest (same ▸ opcode)
        ((whole (Opcode.ne_of_computes opcode rfl)).trans written) (fresh unwritten)
    | stores place opcode written named =>
      exact .stores place (same.trans opcode)
        ((whole (by rw [opcode]; decide)).trans written) named
    | fills array index type opcode written =>
      refine .fills array (aliases.operand index) type (same.trans opcode) ?_
      rw [aliases.instr_eq]
      simp only [if_pos opcode, written, map_some, aliases.operand_element]
    | reserves array type opcode written =>
      exact .reserves array type (same.trans opcode)
        ((whole (by rw [opcode]; decide)).trans written)
    | calls opcode unwritten =>
      refine .calls (same.trans opcode) ?_
      rw [whole (by rw [opcode]; decide)]
      exact fun dest member => fresh (unwritten dest member)
    | passes opcode written position =>
      refine .passes (same.trans opcode) ((whole (by rw [opcode]; decide)).trans written) ?_
      obtain ⟨value, literal⟩ := isSome_iff_exists.mp position
      obtain ⟨type, read⟩ := Instr.src2_of_immediate2? literal
      rw [Instr.immediate2?, aliases.instr_eq, read, map_some, links.operand_of_isSteady rfl]
      rfl
    | plain opcode written named =>
      refine .plain (same ▸ opcode) ((whole ?_).trans written) ?_
      · intro store
        rw [store] at opcode
        cases opcode
      · rw [aliases.instr_eq]
        exact named
  · intro operand member
    obtain ⟨source, inside, rfl⟩ := mem_inputs_instr member
    exact (links.operand (regular.inputs source inside)).1
  · intro strict
    rw [links.strict] at strict
    have typed := regular.typed strict
    rw [Instr.isTyped] at typed ⊢
    rw [aliases.instr_eq]
    dsimp only
    rw [links.typeOf_map strict fun operand read =>
        regular.inputs operand (Instr.mem_inputs_of_src1 read),
      links.typeOf_map strict fun operand read =>
        regular.inputs operand (Instr.mem_inputs_of_src2 read)]
    split
    · next opcode => rw [opcode]; rfl
    · exact typed

/-- Renamed code goes on beside the code. -/
theorem keep {instr : Instr} (regular : instr.Regular scan) :
    aliases.Links (scan.after instr) (other.after (aliases.instr instr)) := by
  have same := aliases.opcode_instr instr
  have written := aliases.written?_instr instr
  constructor
  · intro entry member
    obtain ⟨name, place, known⟩ := links.domain entry member
    exact ⟨name, place, fun unwritten => known (Scan.types_after_eq_none.mp unwritten).2⟩
  · intro name type ready known
    obtain ⟨straight, earlier⟩ := Scan.known_after ready known
    have straight' : (aliases.instr instr).opcode.isBoundary = false := same ▸ straight
    rcases earlier with new | ⟨_, before, known⟩
    · rw [Scan.types_after, if_pos new] at known
      rw [links.operand_of_fresh (regular.formed.fresh_of_written? new)]
      refine ⟨⟨(Scan.ready_after straight' name).mpr (.inl (written ▸ new)), ?_⟩, fun _ => rfl, rfl⟩
      rw [Scan.types_after, written, if_pos new, known]
    · obtain ⟨allowed, type, fixed⟩ := links.ready name type before known
      refine ⟨allowed.after fixed (links.instr regular).formed straight', fun strict => ?_, fixed⟩
      exact type (scan.strict_after instr ▸ strict)
  · intro place apart
    rw [Scan.types_after, Scan.types_after, written, links.places place apart]
  · intro name unwritten
    obtain ⟨apart, before⟩ := Scan.types_after_eq_none.mp unwritten
    exact Scan.types_after_eq_none.mpr ⟨written ▸ apart, links.fresh name before⟩
  · rw [Scan.strict_after, Scan.strict_after, links.strict]

end Aliases.Links

theorem Instr.Forwards.type_eq {dest : Operand}
    (forwards : store.Forwards load place value) (strict : scan.strict)
    (one : store.Regular scan) (two : load.Regular (scan.after store))
    (written : load.dest = some dest) : value.type = dest.type := by
  have strict' : (scan.after store).strict := scan.strict_after store ▸ strict
  obtain ⟨spot, defined, read⟩ := forwards.same
  obtain ⟨target, whole, named⟩ := bind_eq_some_iff.mp defined
  obtain ⟨source, read, place⟩ := bind_eq_some_iff.mp read
  have stored : value.type = target.type := by
    have typed := one.typed strict
    simpa [isTyped, forwards.isStore, Opcode.accepts, forwards.stored, whole, typeOf] using typed
  have loaded : source.type = dest.type := by
    have typed := two.typed strict'
    simpa [isTyped, forwards.isLoad, Opcode.accepts, read, written, typeOf] using typed
  have between : (scan.after store).types spot = some target.type := by
    rw [Scan.types_after, written?_of_store forwards.isStore, whole, bind_some, if_pos named]
    rfl
  rw [stored, (two.inputs source (mem_inputs_of_src1 read)).type_eq strict' place between, loaded]

namespace Aliases.Links

variable {aliases : Aliases} {scan other : Scan} (links : aliases.Links scan other)
  {store load : Instr} (one : store.Regular scan) (two : load.Regular (scan.after store))
  {place : Location} {value : Operand}
  (forwards : (aliases.instr store).Forwards (aliases.instr load) place value)
include two forwards

/-- The load would fill a new temporary. -/
theorem filled_of_forwards : ∃ name type, place = .temp name ∧ load.opcode = .load ∧
    load.dest = some (.temp name type) ∧ (aliases.instr load).dest = some (.temp name type) ∧
    (scan.after store).types (.temp name) = none ∧
    load.written?.bind Operand.location? = some (.temp name) := by
  have isLoad : load.opcode = .load := aliases.opcode_instr load ▸ forwards.isLoad
  obtain ⟨_, written, name, type, rfl, fresh⟩ := two.formed.of_computes (by rw [isLoad]; rfl)
  have whole : (aliases.instr load).dest = some (.temp name type) := by
    rw [aliases.instr_eq]
    simp only [isLoad, written]
    rfl
  have defined := forwards.filled
  rw [Instr.defined, whole] at defined
  refine ⟨name, type, (Option.some.inj defined).symm, isLoad, written, whole, fresh, ?_⟩
  rw [Instr.written?_of_computes (by rw [isLoad]; rfl), written]
  rfl

include links one

/-- The temporary of the load is read as what was stored, and the others as before. -/
theorem operand_add_of_known {temp : String} {type : DataType}
    (ready : ((scan.after store).after load).ready temp)
    (known : ((scan.after store).after load).types (.temp temp) = some type) :
    place = .temp temp ∧ load.dest = some (.temp temp type) ∧
        (aliases.add place value).operand (.temp temp type) = value ∨
      place ≠ .temp temp ∧ (scan.after store).ready temp ∧
        (scan.after store).types (.temp temp) = some type ∧
        (aliases.add place value).operand (.temp temp type) =
          aliases.operand (.temp temp type) := by
  have kept := links.keep one
  obtain ⟨name, own, rfl, isLoad, written, _, fresh, new⟩ := filled_of_forwards two forwards
  rw [aliases.operand_add]
  rcases (Scan.known_after ready known).2 with here | ⟨apart, before, earlier⟩
  · obtain rfl : name = temp := Location.temp.inj (Option.some.inj (new.symm.trans here))
    rw [Scan.types_after, if_pos new, Instr.written?_of_computes (by rw [isLoad]; rfl),
      written] at known
    obtain rfl : own = type := Option.some.inj known
    refine .inl ⟨rfl, written, ?_⟩
    rw [kept.operand_of_fresh fresh]
    exact if_pos rfl
  · obtain ⟨allowed, _, fixed⟩ := kept.ready temp type before earlier
    exact .inr ⟨fun clash => apart (clash ▸ new), before, earlier,
      allowed.rename_of_fresh fixed (kept.fresh name fresh) value⟩

theorem drop : (aliases.add place value).Links ((scan.after store).after load)
    (other.after (aliases.instr store)) := by
  have kept := links.keep one
  obtain ⟨name, type, named, _, filled, whole, _, new⟩ := filled_of_forwards two forwards
  have strictly (strict : ((scan.after store).after load).strict) : scan.strict := by
    rwa [Scan.strict_after, Scan.strict_after] at strict
  have stored : value.Regular (other.after (aliases.instr store)) :=
    ((links.instr one).inputs value (Instr.mem_inputs_of_src1 forwards.stored)).after
      forwards.fixed (links.instr one).formed (by rw [forwards.isStore]; rfl)
  constructor
  · intro entry member
    rcases mem_append.mp member with old | last
    · obtain ⟨renamed, same, known⟩ := kept.domain entry old
      exact ⟨renamed, same, fun unwritten => known (Scan.types_after_eq_none.mp unwritten).2⟩
    · cases mem_singleton.mp last
      exact ⟨name, named, fun unwritten => (Scan.types_after_eq_none.mp unwritten).1 new⟩
  · intro temp ownType ready known
    rcases links.operand_add_of_known one two forwards ready known with
      ⟨here, written, renamed⟩ | ⟨_, before, earlier, renamed⟩ <;> rw [renamed]
    · refine ⟨stored, fun strict => ?_, forwards.fixed⟩
      cases here.symm.trans named
      cases written.symm.trans filled
      exact forwards.type_eq (links.strict ▸ strictly strict) (links.instr one) (kept.instr two) whole
    · obtain ⟨allowed, ownType, fixed⟩ := kept.ready temp ownType before earlier
      exact ⟨allowed, fun strict => ownType (Scan.strict_after _ load ▸ strict), fixed⟩
  · intro place apart
    have differs : ¬ load.written?.bind Operand.location? = some place := by
      rw [new]
      rintro clash
      cases clash
      exact apart name rfl
    rw [Scan.types_after (scan.after store), if_neg differs]
    exact kept.places place apart
  · intro temp unwritten
    exact kept.fresh temp (Scan.types_after_eq_none.mp unwritten).2
  · rw [kept.strict, Scan.strict_after (scan.after store)]

end Aliases.Links

/-! ## The run of the code behind the renaming -/

/-- The states hold the same, where renamed temporaries are read as what they are renamed to. -/
structure Aliases.Mirrors (aliases : Aliases) (setting : Setting) (owns : String → Bool)
    (scan : Scan) (state other : State) : Prop where
  temps : ∀ name type, scan.ready name → scan.types (.temp name) = some type →
    (aliases.operand (.temp name type)).value setting owns other = state.get (.temp name)
  places : ∀ place, (∀ name, place ≠ .temp name) → other.get place = state.get place
  rest : state.AgreesOn [] other

variable {setting : Setting} {state : State}

theorem Operand.value_of_isFixed {operand : Operand} (fixed : operand.isFixed = true)
    {owns : String → Bool} {next : State} (kept : ∀ name, operand.location? = some (.temp name) →
      next.get (.temp name) = state.get (.temp name)) :
    operand.value setting owns next = operand.value setting owns state := by
  cases operand with
  | temp name type => exact kept name rfl
  | immediate value type => rfl
  | _ => cases fixed

theorem Operand.Regular.not_written {operand : Operand}
    (regular : operand.Regular scan) {instr : Instr} (formed : instr.Formed scan)
    (named : operand.location? = some (.temp name)) :
    ¬ instr.written?.bind Operand.location? = some (.temp name) := by
  intro written
  have fresh := formed.fresh_of_written? written
  cases operand <;> cases named
  exact some_ne_none _ (regular.2.symm.trans fresh)

theorem Instr.Forwards.get_apply {spot : Location}
    (forwards : store.Forwards load place value) (regular : store.Regular scan)
    {owns : String → Bool} {change : Change} {events : List Event}
    (planned : store.plan setting owns state = .next change events)
    (defined : store.defined = some spot) :
    (change.apply state).get spot = value.value setting owns (change.apply state) := by
  have get := regular.formed.get_apply planned
  have member := mem_inputs_of_src1 forwards.stored
  have kept : value.value setting owns (change.apply state) = value.value setting owns state := by
    refine Operand.value_of_isFixed forwards.fixed fun name named => ?_
    rw [get, if_neg ((regular.inputs value member).not_written regular.formed named)]
  rw [Instr.defined] at defined
  rw [kept, get, written?_of_store forwards.isStore, if_pos defined]
  simp [Instr.result, forwards.isStore, Opcode.isBinary, Opcode.isComparison, Opcode.onOne,
    Instr.first, forwards.stored]

namespace Aliases.Mirrors

variable {aliases : Aliases} {setting : Setting} {owns : String → Bool} {scan other : Scan}
  {state state' : State} (mirrors : aliases.Mirrors setting owns scan state state')
  (links : aliases.Links scan other)
include mirrors links

/-- A renamed operand reads like the operand. -/
theorem reading (strict : scan.strict) {operand : Operand} (regular : operand.Regular scan) :
    Instr.reading setting owns state' (aliases.operand operand) =
      Instr.reading setting owns state operand := by
  refine Prod.ext ((links.operand regular).2 strict) ?_
  have stays {operand : Operand} (steady : operand.isSteady = true)
      {place : Location} (named : operand.location? = some place)
      (apart : ∀ name, place ≠ .temp name) :
      (aliases.operand operand).value setting owns state' = operand.value setting owns state := by
    rw [links.operand_of_isSteady steady, Operand.value_of_location? named, Operand.value_of_location? named,
      mirrors.places place apart]
  induction operand with
  | temp name type => exact mirrors.temps name type regular.1 regular.2
  | element array index type ih =>
    have inner : (aliases.operand index).value setting owns state' =
      index.value setting owns state := ih regular
    have type := (links.operand (show index.Regular scan from regular)).2 strict
    simp only [Instr.reading, aliases.operand_element, Operand.value, type, inner, State.element,
      mirrors.rest.arrays, mirrors.rest.globals]
  | immediate value type | label name type =>
    dsimp only [Instr.reading]
    rw [links.operand_of_isSteady rfl]
    rfl
  | var name type | param name type | global name type =>
    exact stays rfl rfl (by intro name; exact Location.noConfusion)

section

variable {instr : Instr} (regular : instr.Regular scan)
include regular

theorem plan (strict : scan.strict) :
    (aliases.instr instr).plan setting owns state' = instr.plan setting owns state := by
  have sources {source : Option Operand} (all : ∀ operand ∈ source, operand ∈ instr.inputs) :
      (source.map aliases.operand).map (Instr.reading setting owns state') =
        source.map (Instr.reading setting owns state) := by
    cases source with
    | none => rfl
    | some operand =>
      exact congrArg some (mirrors.reading links strict (regular.inputs operand (all operand rfl)))
  have whole (opcode : instr.opcode ≠ .arrayStore) : (aliases.instr instr).dest = instr.dest := by
    rw [aliases.instr_eq]
    exact if_neg opcode
  refine Instr.plan_congr (aliases.opcode_instr instr) (by rw [aliases.instr_eq]) ?_ ?_ ?_
    (fun call => whole (by rw [call]; decide)) ?_
  · rw [aliases.instr_eq]
    exact sources fun _ => Instr.mem_inputs_of_src1
  · rw [aliases.instr_eq]
    exact sources fun _ => Instr.mem_inputs_of_src2
  · intro arg
    -- The position of an argument is a literal, which is not renamed.
    obtain ⟨value, literal⟩ := isSome_iff_exists.mp (regular.formed.position_of_arg arg)
    obtain ⟨type, read⟩ := Instr.src2_of_immediate2? literal
    rw [Instr.position, Instr.position, Instr.immediate2?, Instr.immediate2?, aliases.instr_eq, read,
      map_some, links.operand_of_isSteady rfl]
  · intro gives
    refine regular.formed.givePlan_congr gives whole ?_
    intro array index type opcode written
    refine ⟨aliases.operand index, ?_, rfl, mirrors.reading links strict ?_⟩
    · rw [aliases.instr_eq]
      simp only [if_pos opcode, written, map_some, aliases.operand_element]
    · exact regular.inputs (.element array index type) (by simp [Instr.inputs, opcode, written])

theorem step {next next' : State}
    (new : ∀ place, instr.written?.bind Operand.location? = some place →
      next'.get place = next.get place)
    (old : ∀ name, instr.written?.bind Operand.location? ≠ some (.temp name) →
      next.get (.temp name) = state.get (.temp name) ∧
        next'.get (.temp name) = state'.get (.temp name))
    (places : ∀ place, (∀ name, place ≠ .temp name) → next'.get place = next.get place)
    (rest : next.AgreesOn [] next') :
    aliases.Mirrors setting owns (scan.after instr) next next' := by
  refine ⟨?_, places, rest⟩
  intro name type ready known
  rcases (Scan.known_after ready known).2 with written | ⟨written, before, known⟩
  · rw [links.operand_of_fresh (regular.formed.fresh_of_written? written)]
    exact new _ written
  · obtain ⟨allowed, _, fixed⟩ := links.ready name type before known
    rw [(old name written).1, ← mirrors.temps name type before known]
    refine Operand.value_of_isFixed fixed fun renamed named => (old renamed ?_).2
    have apart := allowed.not_written (links.instr regular).formed named
    rwa [aliases.written?_instr] at apart

theorem next {change : Change} {events : List Event}
    (planned : instr.plan setting owns state = .next change events) :
    aliases.Mirrors setting owns (scan.after instr) (change.apply state) (change.apply state') := by
  have get := regular.formed.get_apply planned
  refine mirrors.step links regular ?_ ?_ ?_ (mirrors.rest.apply change)
  · intro place written
    rw [get, get, if_pos written, if_pos written]
  · intro name apart
    rw [get, get, if_neg apart, if_neg apart]
    exact ⟨rfl, rfl⟩
  · intro place apart
    rw [get, get, mirrors.places place apart]

theorem returned (call : instr.opcode = .call) (globals : Globals) (value : Word) :
    aliases.Mirrors setting owns (scan.after instr) ((state.back globals).returned instr.dest value)
      ((state'.back globals).returned instr.dest value) := by
  have written := Instr.written?_of_call call
  refine mirrors.step links regular ?_ ?_ ?_ (mirrors.rest.returned globals instr.dest value)
  · intro place named
    rw [written] at named
    rw [State.get_returned, State.get_returned, if_pos named, if_pos named]
  · intro name apart
    rw [written] at apart
    rw [State.get_returned, State.get_returned, if_neg apart, if_neg apart]
    exact ⟨rfl, rfl⟩
  · intro place apart
    rw [State.get_returned, State.get_returned]
    have same : (state'.back globals).get place = (state.back globals).get place := by
      cases place with
      | global name => rfl
      | _ => exact mirrors.places _ apart
    rw [same]

end

theorem drop (strict : scan.strict) {store load : Instr} (one : store.Regular scan)
    (two : load.Regular (scan.after store)) {place : Location} {value : Operand}
    (forwards : (aliases.instr store).Forwards (aliases.instr load) place value)
    {change : Change} {events : List Event}
    (planned : store.plan setting owns state = .next change events) :
    ∃ next, load.effect setting owns (change.apply state) = .next next [] ∧
      (aliases.add place value).Mirrors setting owns ((scan.after store).after load) next
        (change.apply state') := by
  have kept := links.keep one
  have later := mirrors.next links one planned
  have strict' : (scan.after store).strict := scan.strict_after store ▸ strict
  obtain ⟨name, type, rfl, isLoad, written, _⟩ := Links.filled_of_forwards two forwards
  -- The load reads what the store has just put there.
  have loaded : load.result setting owns (change.apply state) =
      value.value setting owns (change.apply state') := by
    obtain ⟨spot, defined, found⟩ := forwards.same
    obtain ⟨source, renamed, there⟩ := bind_eq_some_iff.mp found
    rw [aliases.instr_eq] at renamed
    obtain ⟨original, read, rfl⟩ := map_eq_some_iff.mp renamed
    have same := congrArg Prod.snd (later.reading kept strict'
      (two.inputs original (Instr.mem_inputs_of_src1 read)))
    rw [← forwards.get_apply (links.instr one) (mirrors.plan links one strict ▸ planned) defined,
      ← Operand.value_of_location? there setting owns]
    simpa [Instr.result, isLoad, Opcode.isBinary, Opcode.isComparison, Opcode.onOne, Instr.first,
      read, Instr.reading] using same.symm
  refine ⟨(change.apply state).set (.temp name) (load.result setting owns (change.apply state)),
    ?_, ?_, ?_, later.rest.setTemp (by rintro ⟨⟩) _⟩
  · rw [Instr.effect_of_givesValue (by rw [isLoad]; rfl), Instr.give, written]
    rfl
  · intro temp ownType ready known
    rcases links.operand_add_of_known one two forwards ready known with
      ⟨here, _, renamed⟩ | ⟨apart, before, earlier, renamed⟩ <;> rw [renamed, State.get_set]
    · rw [if_pos here.symm, loaded]
    · rw [later.temps temp ownType before earlier, if_neg (Ne.symm apart)]
  · intro place apart
    rw [State.get_set, if_neg (apart name), later.places place apart]

end Aliases.Mirrors

/-! ## Whole functions -/

/-- The code ahead, before and behind the renaming. -/
inductive Aliases.Ahead : Aliases → Scan → Scan → List Instr → List Instr → Prop where
  | nil {aliases : Aliases} {scan other : Scan} : Ahead aliases scan other [] []
  | keep {aliases : Aliases} {scan other : Scan} {instr : Instr} {rest rest' : List Instr}
      (links : aliases.Links scan other) (here : instr.Regular scan)
      (more : Ahead aliases (scan.after instr) (other.after (aliases.instr instr)) rest rest') :
      Ahead aliases scan other (instr :: rest) (aliases.instr instr :: rest')
  | drop {aliases : Aliases} {scan other : Scan} {store load : Instr} {place : Location}
      {value : Operand} {rest rest' : List Instr} (links : aliases.Links scan other)
      (here : store.Regular scan) (next : load.Regular (scan.after store))
      (forwards : (aliases.instr store).Forwards (aliases.instr load) place value)
      (more : Ahead (aliases.add place value) ((scan.after store).after load)
        (other.after (aliases.instr store)) rest rest') :
      Ahead aliases scan other (store :: load :: rest) (aliases.instr store :: rest')

theorem Regular.aheadFrom {other : Scan}
    (regular : Regular scan code) (links : aliases.Links scan other) :
    aliases.Ahead scan other code (forwardFrom aliases.instr code).code := by
  generalize settles : aliases.instr = settle
  fun_induction forwardFrom settle code generalizing aliases scan other <;> subst settles
  case case1 => exact .nil
  case case2 => exact .keep links regular.1 .nil
  case case3 store load rest place value found ih =>
    have forwards := Instr.forwards_of_forwarded? found
    exact .drop links regular.1 regular.2.1 forwards
      (ih regular.2.2 (links.drop regular.1 regular.2.1 forwards) (funext fun _ => foldl_append ..))
  case case4 ih => exact .keep links regular.1 (ih regular.2 (links.keep regular.1) rfl)

theorem Regular.ahead {strict : Prop} (regular : Regular (.empty strict) code) :
    Aliases.Ahead [] (.empty strict) (.empty strict) code (forwardLoads code).code :=
  regular.aheadFrom (Aliases.links_nil strict)

namespace Aliases.Ahead

variable {aliases : Aliases} {scan other : Scan} {rest rest' : List Instr}

/-- Renamed code is regular. -/
theorem regular_code (ahead : aliases.Ahead scan other rest rest') : Regular other rest' := by
  induction ahead with
  | nil => trivial
  | keep links here _ ih | drop links here _ _ _ ih => exact ⟨links.instr here, ih⟩

theorem marks_instr (aliases : Aliases) (instr : Instr) (name : String) :
    (aliases.instr instr).marks name = instr.marks name := by
  rw [Instr.marks, Instr.marks, aliases.instr_eq]

theorem afterLabel (ahead : aliases.Ahead scan other rest rest') (name : String) :
    TargetsMeet (fun target target' => ∃ aliases scan' other', Aliases.Ahead aliases scan' other'
        target target' ∧ (∀ temp, ¬ scan'.ready temp) ∧ scan'.strict = scan.strict)
      (afterLabel name rest) (afterLabel name rest') := by
  induction ahead with
  | nil => trivial
  | @keep aliases scan other instr rest rest' links here more ih =>
    rw [Ir.afterLabel, Ir.afterLabel, marks_instr]
    cases marks : instr.marks name with
    | true =>
      have label := Instr.opcode_of_marks marks
      refine ⟨aliases, _, _, more, fun temp ready => ?_, Scan.strict_after scan instr⟩
      rw [Scan.after, if_pos (by rw [label]; rfl)] at ready
      exact ready
    | false =>
      rw [Scan.strict_after] at ih
      exact ih
  | @drop aliases scan other store load _ _ _ _ links here next forwards more ih =>
    have unmarked {instr : Instr} (plain : (aliases.instr instr).opcode ≠ .label) :
        instr.marks name = false := by
      rw [aliases.opcode_instr] at plain
      rw [Instr.marks, beq_false_of_ne plain]
      rfl
    rw [Scan.strict_after, Scan.strict_after] at ih
    rw [Ir.afterLabel, Ir.afterLabel, Ir.afterLabel, marks_instr,
      unmarked (by rw [forwards.isStore]; decide), unmarked (by rw [forwards.isLoad]; decide)]
    exact ih

theorem any_eq (ahead : aliases.Ahead scan other rest rest') {test : Instr → Bool}
    (kept : ∀ (aliases : Aliases) (instr : Instr), test (aliases.instr instr) = test instr)
    (loads : ∀ instr : Instr, instr.opcode = .load → test instr = false) :
    rest'.any test = rest.any test := by
  induction ahead with
  | nil => rfl
  | keep _ _ _ ih => rw [any_cons, any_cons, kept, ih]
  | @drop aliases _ _ _ load _ _ _ _ _ _ _ forwards _ ih =>
    have isLoad := aliases.opcode_instr load ▸ forwards.isLoad
    rw [any_cons, any_cons, any_cons, kept, loads load isLoad, ih, Bool.false_or]

/-- The function has the same arrays. -/
theorem owns {function replaced : Function}
    (ahead : aliases.Ahead scan other function.code replaced.code) :
    replaced.owns = function.owns := by
  funext array
  refine ahead.any_eq ?_ ?_
  · intro aliases instr
    rw [Instr.defined, Instr.defined, aliases.instr_eq]
    dsimp only
    split
    · next opcode => rw [opcode]; rfl
    · rfl
  · intro instr load
    rw [load]
    rfl

end Aliases.Ahead

/-- Before and behind the renaming, or in front of a load that is dropped. -/
inductive ForwardedAt (setting : Setting) (function : Function) : Point → Point → Prop where
  | along {aliases : Aliases} {scan other : Scan} {rest rest' : List Instr} {state state' : State}
      (ahead : aliases.Ahead scan other rest rest') (strict : scan.strict)
      (mirrors : aliases.Mirrors setting function.owns scan state state') :
      ForwardedAt setting function ⟨rest, state⟩ ⟨rest', state'⟩
  | skip {first next second : Point} (move : function.move setting first = .go [] next)
      (shorter : next.rest.length < first.rest.length)
      (behind : ForwardedAt setting function next second) :
      ForwardedAt setting function first second

/-- A function matches itself after load forwarding. -/
theorem matches_forwardLoads (setting : Setting) {function : Function}
    (regular : Regular (.empty True) function.code) :
    Matches setting function { function with code := (forwardLoads function.code).code }
      (ForwardedAt setting function) := by
  have whole := regular.ahead
  have owns : { function with code := (forwardLoads function.code).code }.owns = function.owns :=
    Aliases.Ahead.owns whole
  have meets {aliases : Aliases} {scan other : Scan} {instr : Instr} {rest more' : List Instr}
      {state state' : State} (strict : scan.strict)
      (mirrors : aliases.Mirrors setting function.owns scan state state')
      (links : aliases.Links scan other) (here : instr.Regular scan)
      (next : ∀ change events, instr.plan setting function.owns state = .next change events →
        ForwardedAt setting function ⟨rest, change.apply state⟩ ⟨more', change.apply state'⟩)
      (call : instr.opcode = .call → ∀ globals value,
        ForwardedAt setting function ⟨rest, (state.back globals).returned instr.dest value⟩
          ⟨more', (state'.back globals).returned instr.dest value⟩) :
      Meets setting function { function with code := (forwardLoads function.code).code }
        (ForwardedAt setting function) ⟨instr :: rest, state⟩
        ⟨aliases.instr instr :: more', state'⟩ := by
    refine Meets.of_formed here.formed (links.instr here).formed
      (owns ▸ mirrors.plan links here strict) mirrors.rest.pending mirrors.rest.globals next
      (fun name _ => ?_) call
    refine (whole.afterLabel name).mono ?_
    rintro target target' ⟨aliases', scan', other', there, unready, kept⟩
    exact .along there (kept ▸ trivial)
      ⟨fun name _ ready => (unready name ready).elim, mirrors.places, mirrors.rest⟩
  refine .of_drops rfl ?_ ?_
  · intro state
    refine .along whole trivial ⟨fun _ _ ready => ready.elim, fun _ _ => rfl, .refl [] state⟩
  rintro first second (⟨ahead, strict, mirrors⟩ | ⟨move, shorter, behind⟩)
  · rename_i aliases scan other rest rest' state state'
    refine .inl ?_
    cases ahead with
    | nil => exact ⟨rfl, mirrors.rest.globals⟩
    | @keep _ _ _ instr _ _ links here more =>
      have strict' : (scan.after instr).strict := scan.strict_after instr ▸ strict
      refine meets strict mirrors links here (fun change events planned => ?_)
        fun call globals value => ?_
      · exact .along more strict' (mirrors.next links here planned)
      · exact .along more strict' (mirrors.returned links here call globals value)
    | @drop _ _ _ store load _ _ _ _ links here next forwards more =>
      -- The load is a step of the first function alone.
      refine meets strict mirrors links here (fun change events planned => ?_) fun call => ?_
      · obtain ⟨next, effect, later⟩ := mirrors.drop links strict here next forwards planned
        have strict' : ((scan.after store).after load).strict := by
          rwa [Scan.strict_after, Scan.strict_after]
        refine .skip ?_ (Nat.lt_succ_self _) (.along more strict' later)
        simp only [Function.move, effect]
      · have isStore := forwards.isStore
        rw [aliases.opcode_instr, call] at isStore
        cases isStore
  · exact .inr ⟨_, move, behind, shorter⟩

end ArmBackend.Ir
