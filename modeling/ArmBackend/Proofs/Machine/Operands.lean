import ArmBackend.Proofs.Machine.Emission
import ArmBackend.Proofs.Machine.Holding

/-!
# What operands bring

The code that brings the value of an operand into a register brings the value that the
operand has in the state that the machine holds.  It works in scratch registers that were
free, and leaves alone all those that others have taken.
-/

namespace ArmBackend.Machine

open List

open ArmBackend.Frame

namespace Emit

/-- Whatever the step emits leads from a state to one of which this is true. -/
def Leads {α : Type} (platform : Platform) (step : Emit α) (free : List Reg) (before : State)
    (post : α → List Reg → State → Prop) : Prop :=
  ∀ emitted, step free = .ok emitted →
    post emitted.value emitted.free (execAll platform emitted.code before)

namespace Leads

variable {α β : Type} {platform : Platform} {free : List Reg} {before : State}
  {post : α → List Reg → State → Prop}

theorem mono {step : Emit α} {post' : α → List Reg → State → Prop}
    (leads : step.Leads platform free before post)
    (weaker : ∀ value free' after, post value free' after → post' value free' after) :
    step.Leads platform free before post' :=
  fun emitted done => weaker _ _ _ (leads emitted done)

theorem bind {first : Emit α} {next : α → Emit β} {post : β → List Reg → State → Prop}
    (leads : first.Leads platform free before fun value free' after =>
      (next value).Leads platform free' after post) :
    (first >>= next).Leads platform free before post := by
  intro emitted done
  obtain ⟨head, tail, one, two, rfl⟩ := bind_ok done
  rw [execAll_append]
  exact leads head one tail two

variable {value : α}

theorem done (holds : post value free before) :
    (Emit.done value).Leads platform free before post := by
  rintro _ ⟨⟩
  exact holds

theorem pure (holds : post value free before) :
    (Pure.pure value : Emit α).Leads platform free before post :=
  done holds

theorem code {instrs : List Instr} {post : Unit → List Reg → State → Prop}
    (holds : post () free (execAll platform instrs before)) :
    (Emit.code instrs).Leads platform free before post := by
  rintro _ ⟨⟩
  exact holds

theorem fail {cause : Cause} : (Emit.fail cause : Emit α).Leads platform free before post := by
  rintro _ ⟨⟩

theorem scratch {post : Reg → List Reg → State → Prop}
    (holds : ∀ register rest, free = register :: rest → post register rest before) :
    Emit.scratch.Leads platform free before post := by
  intro emitted taken
  cases free with
  | nil => cases taken
  | cons register rest =>
    cases taken
    exact holds register rest rfl

theorem refill {post : Unit → List Reg → State → Prop} (holds : post () Reg.scratch before) :
    Emit.refill.Leads platform free before post := by
  rintro _ ⟨⟩
  exact holds

theorem required {part : Option α} (holds : ∀ value, part = some value → post value free before) :
    (Emit.required part).Leads platform free before post := by
  cases part with
  | none => exact fail
  | some value => exact done (holds value rfl)

end Leads

end Emit

/-- The registers that a step may change which has these scratch registers. -/
def working (free : List Reg) : List Reg :=
  .address :: .offset :: free

variable {home : Home} {place : Ir.Location} {free rest : List Reg} {register source : Reg}

theorem working_subset {free' : List Reg} (fewer : free' <:+ free) : working free' ⊆ working free :=
  cons_subset_cons _ (cons_subset_cons _ fewer.subset)

theorem working_subset_temporaries (scratch : free <:+ Reg.scratch) :
    working free ⊆ Reg.temporaries := by
  refine List.Subset.trans (working_subset scratch) ?_
  decide

/-- The register was taken from the scratch registers and left the rest of them. -/
structure Taken (free : List Reg) (register : Reg) (rest : List Reg) : Prop where
  fewer : rest <:+ free
  listed : register ∈ free
  spared : register ∉ working rest
  named : register ≠ .zr
  not_fp : register ≠ .fp

theorem Taken.mem_working (taken : Taken free register rest) :
    register ∈ working free :=
  mem_cons_of_mem _ (mem_cons_of_mem _ taken.listed)

theorem Taken.confined {value : Word} {before after : State} (taken : Taken free register rest)
    (brings : Brings register value (working rest) before after) :
    Confined (working free) [] before after :=
  brings.confined.widen (cons_subset.mpr ⟨taken.mem_working, working_subset taken.fewer⟩)

theorem taken_of_scratch (scratch : free <:+ Reg.scratch) (next : free = register :: rest) :
    Taken free register rest := by
  subst next
  have nodup : (register :: rest).Nodup := scratch.sublist.nodup (by decide)
  have special : ∀ register ∈ Reg.scratch, register ≠ .address ∧ register ≠ .offset ∧
      register ≠ .zr ∧ register ≠ .fp := by decide
  obtain ⟨address, offset, named, not_fp⟩ :=
    special register (scratch.subset (mem_cons_self ..))
  refine ⟨suffix_cons .., mem_cons_self .., fun inside => ?_, named, not_fp⟩
  rcases mem_cons.mp inside with same | inside
  · exact address same
  rcases mem_cons.mp inside with same | inside
  · exact offset same
  · exact (nodup_cons.mp nodup).1 inside

namespace Placement

variable (placed : Placement)

/-- The state has the address of an array where it has the word of its place. -/
def Addressed (fp : Word) (state : Ir.State) (place : Ir.Location) : Prop :=
  ∀ base length, placed.layout.homes.get? place = some (.array base length) →
    state.get place = fp + BitVec.ofInt 64 base

/-- What the operand stands for can be read. -/
structure Reads (fp : Word) (state : Ir.State) (operand : Ir.Operand) : Prop where
  knows : placed.Knows operand
  range : placed.InRange state operand
  addressed : ∀ place ∈ operand.places, placed.Addressed fp state place

/-- The index is known, or in a register that is not among those in use. -/
def Gives (machine : State) (busy : List Reg) (value : Word) : Index → Prop
  | .const word => word = value
  | .reg register => machine.get register = value ∧ register ∉ busy

/-- The word that the machine has for a home; for an array this is its address. -/
def homeWord (machine : State) : Home → Word
  | .reg register => machine.get register
  | .slot offset => machine.memory.load (machine.get .fp + BitVec.ofInt 64 offset)
  | .array base _ => machine.get .fp + BitVec.ofInt 64 base

/-- The state that the machine holds. -/
def readOff (machine : State) : Ir.State where
  locals :=
    { places := fun place => ((placed.layout.homes.get? place).map (homeWord machine)).getD 0
      arrays := fun array index =>
        machine.memory.load (placed.arrayBase (machine.get .fp) array + 8#64 * index) }
  globals :=
    { scalars := fun name => machine.memory.load (placed.globalBase name)
      arrays := fun name index => machine.memory.load (placed.globalBase name + 8#64 * index) }

variable {placed} {machine : State} {state : Ir.State} {free : List Reg}

theorem get_readOff (own : place.isGlobal = false)
    (found : placed.layout.homes.get? place = some home) (machine : State) :
    (placed.readOff machine).get place = homeWord machine home := by
  cases place with
  | global name => cases own
  | _ => simp [readOff, Ir.State.get, found]

/-- Every state of the machine holds some state. -/
theorem holds_readOff (placed : Placement) (machine : State) :
    placed.Holds machine (placed.readOff machine) := by
  intro place
  cases own : place.isGlobal with
  | true =>
    cases place with
    | global name => exact ⟨fun _ _ => rfl, fun _ _ _ => rfl⟩
    | _ => cases own
  | false =>
    rw [holdsAt_of_home own]
    intro home found
    cases home with
    | reg register | slot offset => exact (get_readOff own found machine).symm
    | array base length =>
      rintro array rfl index within
      simp [readOff, arrayBase, found]

variable {type : DataType} {fp value : Word} {array : String} {operand : Ir.Operand} {dest : Reg}

theorem Reads.index {index : Ir.Operand}
    (reads : placed.Reads fp state (.element array index type)) : placed.Reads fp state index :=
  ⟨reads.knows.index, reads.range.1, reads.addressed⟩

variable {index : Ir.Operand}

theorem spares_working (placed : Placement) (scratch : free <:+ Reg.scratch) :
    placed.Spares (working free) :=
  placed.spares_temporaries.mono (working_subset_temporaries scratch)

theorem Holds.element_eq (holds : placed.Holds machine state) {index : Word}
    (used : placed.frames array = false → placed.ArrayGlobal array)
    (within : index.toNat < placed.length array) :
    machine.memory.load (placed.arrayBase (machine.get .fp) array + 8#64 * index) =
      state.element (placed.frames array) array index := by
  have number : BitVec.ofNat 64 index.toNat = index := by simp
  cases own : placed.frames array with
  | true =>
    obtain ⟨base, length, found⟩ := frames_eq_true_iff.mp own
    obtain ⟨start, count, _⟩ := arrayBase_of_frame found (machine.get .fp)
    have kept := (holdsAt_of_home rfl).mp (holds (.var array)) _ found array rfl index.toNat
      (count ▸ within)
    rw [number] at kept
    rw [start]
    exact kept
  | false =>
    obtain ⟨start, count⟩ := arrayBase_of_global own (machine.get .fp)
    have kept := (holds (.global array)).array (used own) index.toNat (count ▸ within)
    rw [number] at kept
    rw [start]
    exact kept

theorem ofInt_element (value : Word) (base : Int) :
    BitVec.ofInt 64 (8 * value.toInt + base) = BitVec.ofInt 64 base + 8#64 * value := by
  rw [BitVec.ofInt_add, BitVec.ofInt_mul, BitVec.ofInt_toInt, BitVec.add_comm]
  rfl

/-- The address of an element in the frame. -/
theorem leads_frameElement (scratch : free <:+ Reg.scratch) (base : Int) {index : Index}
    (gives : Gives machine (working free) value index) :
    (Site.frameElement base index).Leads placed.platform free machine fun element free' after =>
      free' <:+ free ∧ Confined (working free) [] machine after ∧
        element.address after = machine.get .fp + BitVec.ofInt 64 base + 8#64 * value := by
  have based (before : State) : Brings .address (before.get .fp + BitVec.ofInt 64 base) [.offset]
      before (execAll placed.platform (slotAddress .address base) before) :=
    slotAddress_brings placed.platform before (by decide) base
  have subset : [Reg.address, .offset] ⊆ working free := by simp [working]
  cases index with
  | reg register =>
    obtain ⟨same, spared⟩ := gives
    refine .bind (.code (.pure ⟨suffix_refl _, ?_, ?_⟩))
    · exact (based machine).confined.widen subset
    · rw [Element.address, (based machine).get_eq,
        (based machine).confined.get_eq register fun inside => spared (subset inside), same]
  | const word =>
    have same : word = value := gives
    subst same
    unfold Site.frameElement
    dsimp only
    split
    · refine .pure ⟨suffix_refl _, .refl .., ?_⟩
      rw [Element.address, ofInt_element, BitVec.add_assoc]
    · refine .bind (.scratch fun register rest next => ?_)
      have taken := taken_of_scratch scratch next
      refine .bind (.code (.bind (.code (.pure ⟨taken.fewer, ?_, ?_⟩))))
      · rw [execAll_loadConst]
        exact ((confined_set machine register word).widen
          (cons_subset.mpr ⟨taken.mem_working, nil_subset _⟩)).trans
            ((based _).confined.widen subset)
      · have other : register ∉ [Reg.address, .offset] := fun inside =>
          taken.spared (by simp [working] at inside ⊢; exact inside.imp_right .inl)
        rw [execAll_loadConst, Element.address, (based _).get_eq,
          (based _).confined.get_eq register other, State.get_set_self _ _ _ taken.named,
          State.get_set_ne _ _ taken.not_fp.symm]

theorem globalAddress_brings (placed : Placement) (before : State) (name : String) :
    Brings .address (placed.globalBase name) [] before
      (execAll placed.platform (globalAddress name) before) :=
  symbolAddress_brings placed.platform before (by decide) (Symbol.ofGlobal name)

theorem leads_globalElement {index : Index} (gives : Gives machine (working free) value index) :
    (Site.globalElement array index).Leads placed.platform free machine fun element free' after =>
      free' <:+ free ∧ Confined (working free) [] machine after ∧
        element.address after = placed.globalBase array + 8#64 * value := by
  have based := placed.globalAddress_brings machine array
  have subset : [Reg.address] ⊆ working free := by simp [working]
  have confined := based.confined.widen subset
  refine .bind (.code ?_)
  cases index with
  | reg register =>
    obtain ⟨same, spared⟩ := gives
    refine .pure ⟨suffix_refl _, confined, ?_⟩
    rw [Element.address, based.get_eq,
      based.confined.get_eq register fun inside => spared (subset inside), same]
  | const word =>
    have same : word = value := gives
    subst same
    dsimp only
    split
    · refine .pure ⟨suffix_refl _, confined, ?_⟩
      have product : BitVec.ofNat 64 (8 * word.toNat) = 8#64 * word := by
        rw [← eight_mul_ofNat, BitVec.ofNat_toNat, BitVec.setWidth_eq]
      rw [Element.address, based.get_eq, product]
    · refine .bind (.code (.pure ⟨suffix_refl _, ?_, ?_⟩))
      · rw [execAll_loadConst]
        refine confined.trans ((confined_set _ _ _).widen ?_)
        simp [working]
      · rw [execAll_loadConst, Element.address, State.get_set_ne _ _ (by decide),
          State.get_set_self _ _ _ (by decide), based.get_eq]

theorem leads_element (scratch : free <:+ Reg.scratch) {index : Index}
    (gives : Gives machine (working free) value index) :
    (placed.site.element array index).Leads placed.platform free machine fun element free' after =>
      free' <:+ free ∧ Confined (working free) [] machine after ∧
        element.address after = placed.arrayBase (machine.get .fp) array + 8#64 * value := by
  unfold Site.element arrayBase
  split
  · next base length found =>
      have same : placed.layout.homes.get? (.var array) = some (.array base length) := found
      simp only [same]
      exact leads_frameElement scratch base gives
  · next other =>
      split
      · split
        · next base length found => exact absurd found (other base length)
        · exact leads_globalElement gives
      · exact .fail

theorem register?_eq_some_iff :
    placed.site.register? operand = some register ↔
      ∃ place, operand.location? = some place ∧ place.isGlobal = false ∧
        placed.layout.homes.get? place = some (.reg register) := by
  have simple (place : Ir.Location) :
      (placed.layout.homes.get? place).bind Home.reg? = some register ↔
        placed.layout.homes.get? place = some (.reg register) := by
    cases placed.layout.homes.get? place with
    | none => simp
    | some home => cases home <;> simp [Home.reg?]
  cases operand with
  | temp name type | var name type | param name type =>
    rw [Site.register?]
    simp only [Ir.Operand.location?, Option.some.injEq, exists_eq_left', Ir.Location.isGlobal,
      true_and]
    exact simple _
  | global name type => simp [Site.register?, Ir.Operand.location?, Ir.Location.isGlobal]
  | _ => simp [Site.register?, Ir.Operand.location?]

theorem Holds.register_eq (holds : placed.Holds machine state)
    (known : placed.site.register? operand = some register) :
    machine.get register = placed.value state operand ∧ register ∉ Reg.temporaries := by
  obtain ⟨place, named, own, found⟩ := register?_eq_some_iff.mp known
  refine ⟨?_, (not_temporary_of_home found).1⟩
  have kept := (holdsAt_of_home own).mp (holds place) _ found
  rw [Placement.value, Ir.Operand.value_of_location? named]
  exact kept

theorem leads_home {post : Home → List Reg → State → Prop}
    (known : ∀ place home, operand.location? = some place →
      placed.layout.homes.get? place = some home → post home free machine) :
    (placed.site.home operand).Leads placed.platform free machine post := by
  unfold Site.home
  split
  · next home found =>
      obtain ⟨place, named, there⟩ := Option.bind_eq_some_iff.mp found
      exact .done (known place home named there)
  · exact .fail

theorem loadHome_brings (holds : placed.Holds machine state) (own : place.isGlobal = false)
    (found : placed.layout.homes.get? place = some home)
    (addressed : placed.Addressed (machine.get .fp) state place) (named : dest ≠ .zr) :
    Brings dest (state.get place) [.address, .offset] machine
      (execAll placed.platform (Site.loadHome dest home) machine) := by
  have kept := (holdsAt_of_home own).mp (holds place) home found
  cases home with
  | reg register =>
    have same : machine.get register = state.get place := kept
    rw [Site.loadHome, ← same]
    split
    · next equal => exact ⟨by rw [equal]; rfl, .refl ..⟩
    · exact brings_set named _ machine _
  | slot offset =>
    have same : machine.memory.load (machine.get .fp + BitVec.ofInt 64 offset) =
      state.get place := kept
    rw [Site.loadHome, ← same]
    exact (loadSlot_brings placed.platform machine named offset).mono (by simp)
  | array base length =>
    rw [Site.loadHome, addressed base length found]
    exact (slotAddress_brings placed.platform machine named base).mono (by simp)

theorem leads_loadPlace (holds : placed.Holds machine state)
    (location : operand.location? = some place) (own : place.isGlobal = false)
    (addressed : placed.Addressed (machine.get .fp) state place) (named : dest ≠ .zr) :
    (placed.site.home operand >>= fun home => Emit.code (Site.loadHome dest home)).Leads
      placed.platform free machine fun _ free' after => free' <:+ free ∧
        Brings dest (placed.value state operand) (working free) machine after := by
  refine .bind (leads_home fun other home location' found => .code ⟨suffix_refl _, ?_⟩)
  rw [location] at location'
  cases location'
  rw [Placement.value, Ir.Operand.value_of_location? location]
  exact (loadHome_brings holds own found addressed named).mono (by simp [working])

section

variable (scratch : free <:+ Reg.scratch) (holds : placed.Holds machine state)
include scratch holds

variable {loadInto : Reg → Emit Unit}

theorem leads_indexBy (whole : index.type.isFloat = false)
    (loads : ∀ register rest, Taken free register rest →
      (loadInto register).Leads placed.platform rest machine fun _ free' after =>
        free' <:+ rest ∧ Brings register (placed.value state index) (working rest) machine after) :
    (placed.site.indexBy index loadInto).Leads placed.platform free machine fun found free' after =>
      free' <:+ free ∧ Confined (working free) [] machine after ∧
        Gives after (working free') (placed.value state index) found := by
  unfold Site.indexBy
  split
  · next value known =>
      cases index <;> cases known
      refine .pure ⟨suffix_refl _, .refl .., ?_⟩
      simp_all [Gives, Placement.value, Ir.Operand.value, Ir.Immediate.word, Ir.Operand.type]
  · next register known =>
      obtain ⟨same, spared⟩ := holds.register_eq known
      refine .pure ⟨suffix_refl _, .refl .., same, fun inside => ?_⟩
      exact spared (working_subset_temporaries scratch inside)
  · refine .bind (.scratch fun register rest next => ?_)
    have taken := taken_of_scratch scratch next
    refine .bind ((loads register rest taken).mono fun _ free' after loaded => .pure ?_)
    obtain ⟨fewer, brings⟩ := loaded
    exact ⟨fewer.trans taken.fewer, taken.confined brings, brings.get_eq,
      fun inside => taken.spared (working_subset fewer inside)⟩

theorem leads_indexed
    (reads : placed.Reads (machine.get .fp) state (.element array index type))
    (loads : ∀ register rest, Taken free register rest →
      (loadInto register).Leads placed.platform rest machine fun _ free' after =>
        free' <:+ rest ∧ Brings register (placed.value state index) (working rest) machine after) :
    (placed.site.indexBy index loadInto).Leads placed.platform free machine fun found free' after =>
      (placed.site.element array found).Leads placed.platform free' after fun element free'' after' =>
        free'' <:+ free ∧ Confined (working free) [] machine after' ∧
          element.address after' =
            placed.arrayBase (machine.get .fp) array + 8#64 * placed.value state index := by
  refine (leads_indexBy scratch holds reads.range.2.1 loads).mono fun found free' after post => ?_
  obtain ⟨fewer, confined, gives⟩ := post
  refine (leads_element (fewer.trans scratch) gives).mono fun element free'' after' post => ?_
  obtain ⟨fewer', confined', address⟩ := post
  refine ⟨fewer'.trans fewer,
    confined.trans (confined'.widen (working_subset fewer)), ?_⟩
  rw [address, confined.get_eq _ (placed.spares_working scratch).fp]

/-- The value of an operand comes into a register. -/
theorem leads_loadInto (named : dest ≠ .zr)
    (reads : placed.Reads (machine.get .fp) state operand) :
    (placed.site.loadInto dest operand).Leads placed.platform free machine fun _ free' after =>
      free' <:+ free ∧
        Brings dest (placed.value state operand) (working free) machine after := by
  induction operand generalizing dest free machine with
  | temp name type | var name type | param name type =>
    exact leads_loadPlace holds rfl rfl (reads.addressed _ (mem_singleton_self _)) named
  | immediate value type =>
    refine .code ⟨suffix_refl _, ?_⟩
    rw [execAll_loadConst]
    exact brings_set named _ machine _
  | label name type =>
    refine .code ⟨suffix_refl _, ?_⟩
    exact (symbolAddress_brings _ machine named _).mono (nil_subset _)
  | global name type =>
    refine .code ⟨suffix_refl _, ?_⟩
    have based := placed.globalAddress_brings machine name
    have kept := (holds (.global name)).scalar
      (reads.knows.globals name (mem_singleton_self _)) reads.range
    have value : placed.value state (.global name type) =
        machine.memory.load (placed.globalBase name) := kept.symm
    rw [execAll_append, execAll_cons, execAll_nil, Instr.exec, based.get_eq,
      based.confined.memory_eq_of_nil, value, show BitVec.ofNat 64 0 = 0#64 from rfl,
      BitVec.add_zero]
    exact Brings.after (brings_set named _ _ _)
      (based.confined.widen (by simp [working]))
  | element array index type ih =>
    refine .bind ((leads_indexed scratch holds reads fun register rest taken =>
      ih (taken.fewer.trans scratch) holds taken.named reads.index).mono
        fun found free' after inner => .bind (inner.mono fun element free'' after' post => ?_))
    obtain ⟨fewer, confined, address⟩ := post
    refine .code ⟨fewer, ?_⟩
    obtain ⟨_, whole, within⟩ := reads.range
    have value : after'.memory.load (element.address after') =
        placed.value state (.element array index type) := by
      rw [address, confined.memory_eq_of_nil,
        holds.element_eq (reads.knows.arrays array (mem_cons_self ..)) within]
      simp [Placement.value, Ir.Operand.value, whole]
    rw [← value]
    exact ((element.load_brings placed.platform after' named).mono (by simp [working])).after
      confined

theorem leads_load (reads : placed.Reads (machine.get .fp) state operand) :
    (placed.site.load operand).Leads placed.platform free machine fun register free' after =>
      free' <:+ free ∧ Confined (working free) [] machine after ∧
        after.get register = placed.value state operand ∧ register ∉ working free' := by
  unfold Site.load
  split
  · next register known =>
      obtain ⟨same, spared⟩ := holds.register_eq known
      exact .pure ⟨suffix_refl _, .refl .., same,
        fun inside => spared (working_subset_temporaries scratch inside)⟩
  · refine .bind (.scratch fun register rest next => ?_)
    have taken := taken_of_scratch scratch next
    refine .bind ((leads_loadInto (taken.fewer.trans scratch) holds taken.named reads).mono
      fun _ free' after post => .pure ?_)
    obtain ⟨fewer, brings⟩ := post
    exact ⟨fewer.trans taken.fewer, taken.confined brings, brings.get_eq,
      fun inside => taken.spared (working_subset fewer inside)⟩

theorem leads_elementOf
    (reads : placed.Reads (machine.get .fp) state (.element array index type)) :
    (placed.site.elementOf (.element array index type)).Leads placed.platform free machine
      fun element free' after => free' <:+ free ∧ Confined (working free) [] machine after ∧
        element.address after =
          placed.arrayBase (machine.get .fp) array + 8#64 * placed.value state index :=
  .bind (leads_indexed scratch holds reads fun _ _ taken =>
    leads_loadInto (taken.fewer.trans scratch) holds taken.named reads.index)

end

/-! ## Results -/

variable (placed)

/-- The value has come to its destination, and nothing else has changed for good. -/
def Delivers (state : Ir.State) (dest : Ir.Operand) (value : Word) (machine after : State) : Prop :=
  ∃ spot, placed.spot? (machine.get .fp) state dest = some spot ∧ spot.read after = value ∧
    Confined (spot.registers ++ Reg.temporaries) spot.spans machine after

/-- The register to compute the value of a destination in. -/
def IsTarget (dest : Ir.Operand) (free : List Reg) (register : Reg) (free' : List Reg) : Prop :=
  placed.site.register? dest = some register ∧ free' = free ∨
    placed.site.register? dest = none ∧ Taken free register free'

variable {placed} {dest : Ir.Operand} {register : Reg} {free' : List Reg}

theorem IsTarget.fewer (target : placed.IsTarget dest free register free') : free' <:+ free := by
  rcases target with ⟨_, same⟩ | ⟨_, taken⟩
  · exact same ▸ suffix_refl _
  · exact taken.fewer

theorem IsTarget.spared (target : placed.IsTarget dest free register free')
    (scratch : free <:+ Reg.scratch) :
    register ≠ .zr ∧ register ≠ .fp ∧ register ∉ working free' := by
  rcases target with ⟨known, same⟩ | ⟨_, taken⟩
  · obtain ⟨place, _, _, found⟩ := register?_eq_some_iff.mp known
    obtain ⟨spared, fp, _, zr⟩ := not_temporary_of_home found
    subst same
    exact ⟨zr, fp, fun inside => spared (working_subset_temporaries scratch inside)⟩
  · exact ⟨taken.named, taken.not_fp, taken.spared⟩

theorem leads_target (scratch : free <:+ Reg.scratch) :
    (placed.site.target dest).Leads placed.platform free machine fun register free' after =>
      after = machine ∧ placed.IsTarget dest free register free' := by
  unfold Site.target
  split
  · next register known => exact .pure ⟨rfl, .inl ⟨known, rfl⟩⟩
  · next none => exact .scratch fun register rest next =>
      ⟨rfl, .inr ⟨none, taken_of_scratch scratch next⟩⟩

theorem spot?_of_register? (known : placed.site.register? dest = some register) :
    placed.spot? fp state dest = some (.reg register) := by
  obtain ⟨place, named, own, found⟩ := register?_eq_some_iff.mp known
  cases dest with
  | global name type =>
    cases named
    cases own
  | element array index type | label name type | immediate value type => cases named
  | temp name type | var name type | param name type =>
    cases named
    simp [spot?, Ir.Operand.location?, placeSpot?, found]

theorem leads_store (state : Ir.State) (spared : source ≠ .address) :
    (placed.site.store source dest).Leads placed.platform free machine fun _ _ after =>
      ∃ spot, placed.spot? (machine.get .fp) state dest = some spot ∧
        spot.read after = machine.get source ∧
        Confined (spot.registers ++ [.address]) spot.spans machine after := by
  cases dest with
  | global name type =>
    have based := placed.globalAddress_brings machine name
    refine .code ⟨_, rfl, ?_⟩
    have puts := (puts_store (placed.globalBase name) (machine.get source)
      (execAll placed.platform (globalAddress name) machine) [.address]).after based.confined
    have same : (execAll placed.platform (globalAddress name) machine).get source =
        machine.get source :=
      based.confined.get_eq source (by simpa using spared)
    rw [execAll_append, execAll_cons, execAll_nil, Instr.exec, based.get_eq, same,
      show BitVec.ofNat 64 0 = 0#64 from rfl, BitVec.add_zero]
    exact ⟨puts.load_eq, puts.confined⟩
  | element _ _ _ | label _ _ | immediate _ _ =>
    exact .bind (leads_home fun _ _ named _ => by cases named)
  | temp name type | var name type | param name type =>
    refine .bind (leads_home fun place home named found => ?_)
    cases named
    simp only [spot?, Ir.Operand.location?, Option.bind_some, placeSpot?, found]
    cases home with
    | reg register =>
      have listed := not_temporary_of_home found
      refine .code ⟨.reg register, rfl, ?_⟩
      split
      · next same => exact ⟨by rw [same]; rfl, .refl ..⟩
      · have brings := brings_set listed.2.2.2 (machine.get source) machine []
        exact ⟨brings.get_eq, brings.confined.mono (by simp [Spot.registers]) (nil_subset _)⟩
    | slot offset =>
      have puts := storeSlot_puts placed.platform machine spared offset
      exact .code ⟨_, rfl, puts.load_eq, puts.confined⟩
    | array base length => exact .fail

theorem delivers_of_store {registers : List Reg} {middle after : State}
    (confined : Confined registers [] machine middle) (fp : Reg.fp ∉ registers)
    (own : ∀ spot, placed.spot? (machine.get .fp) state dest = some spot →
      registers ⊆ spot.registers ++ Reg.temporaries)
    (stored : ∃ spot, placed.spot? (middle.get .fp) state dest = some spot ∧
      spot.read after = middle.get source ∧
      Confined (spot.registers ++ [.address]) spot.spans middle after) :
    placed.Delivers state dest (middle.get source) machine after := by
  obtain ⟨spot, there, read, confined'⟩ := stored
  rw [confined.get_eq _ fp] at there
  refine ⟨spot, there, read, ?_⟩
  refine (confined.mono (own spot there) (nil_subset _)).trans
    (confined'.widen ?_)
  exact append_subset.mpr ⟨subset_append_left _ _,
    List.Subset.trans (by decide) (subset_append_right _ _)⟩

theorem IsTarget.own (target : placed.IsTarget dest free register free')
    (scratch : free <:+ Reg.scratch) {spot : Spot}
    (there : placed.spot? (machine.get .fp) state dest = some spot) :
    register :: Reg.temporaries ⊆ spot.registers ++ Reg.temporaries := by
  refine cons_subset.mpr ⟨?_, subset_append_right _ _⟩
  rcases target with ⟨known, _⟩ | ⟨_, taken⟩
  · rw [spot?_of_register? known] at there
    cases there
    simp [Spot.registers]
  · exact mem_append_right _ (working_subset_temporaries scratch taken.mem_working)

theorem leads_deliver (state : Ir.State) {machine' : State} {free'' : List Reg}
    (scratch : free <:+ Reg.scratch)
    (target : placed.IsTarget dest free register free')
    (confined : Confined (register :: Reg.temporaries) [] machine machine') :
    (placed.site.store register dest).Leads placed.platform free'' machine' fun _ _ after =>
      placed.Delivers state dest (machine'.get register) machine after := by
  obtain ⟨_, not_fp, spared⟩ := target.spared scratch
  refine (leads_store state ?_).mono fun _ _ after stored => ?_
  · rintro rfl
    exact spared (mem_cons_self ..)
  · refine delivers_of_store confined (fun inside => ?_) (fun _ there => target.own scratch there)
      stored
    rcases mem_cons.mp inside with equal | temporary
    · exact not_fp equal.symm
    · exact placed.spares_temporaries.fp temporary

/-- The value of an operand goes to a destination. -/
theorem leads_assign {value : Ir.Operand} (scratch : free <:+ Reg.scratch)
    (holds : placed.Holds machine state) (reads : placed.Reads (machine.get .fp) state value) :
    (placed.site.assign dest value).Leads placed.platform free machine fun _ _ after =>
      placed.Delivers state dest (placed.value state value) machine after := by
  unfold Site.assign
  split
  · next register known =>
      obtain ⟨place, _, _, found⟩ := register?_eq_some_iff.mp known
      refine (leads_loadInto scratch holds (not_temporary_of_home found).2.2.2 reads).mono
        fun _ _ after post => ⟨.reg register, spot?_of_register? known, post.2.get_eq, ?_⟩
      exact post.2.confined.widen
        (cons_subset_cons _ (working_subset_temporaries scratch))
  · refine .bind ((leads_load scratch holds reads).mono fun register free' middle post => ?_)
    obtain ⟨fewer, confined, same, spared⟩ := post
    have other : register ≠ .address := by
      rintro rfl
      exact spared (by simp [working])
    refine (leads_store state other).mono fun _ _ after stored => ?_
    rw [← same]
    refine delivers_of_store confined (placed.spares_working scratch).fp (fun spot _ => ?_) stored
    exact List.Subset.trans (working_subset_temporaries scratch) (subset_append_right _ _)

end Placement

end ArmBackend.Machine
