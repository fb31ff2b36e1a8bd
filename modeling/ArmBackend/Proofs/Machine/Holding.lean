import ArmBackend.Proofs.Machine.Placement

/-!
# States that hold values

A state of the machine holds a state of three-address code if every register, slot, array
and global has the value that it should have.  Values are held on to while work goes on in
other registers, and written one place at a time.
-/

namespace ArmBackend.Machine

open List

open ArmBackend.Frame

variable {base : Int} {place : Ir.Location} {state : Ir.State} {length : Nat} {name : String}

/-- The states agree in what belongs to the place. -/
structure SameAt (place : Ir.Location) (before after : Ir.State) : Prop where
  get_eq : after.get place = before.get place
  arrays : ∀ array, place = .var array → after.locals.arrays array = before.locals.arrays array
  globals : ∀ name, place = .global name → after.globals.arrays name = before.globals.arrays name

namespace Placement

variable (placed : Placement)

/-- A home holds the value of its place; an array holds its elements. -/
def HoldsHome (machine : State) (state : Ir.State) (place : Ir.Location) : Home → Prop
  | .reg register => machine.get register = state.get place
  | .slot offset =>
    machine.memory.load (machine.get .fp + BitVec.ofInt 64 offset) = state.get place
  | .array base length => ∀ array, place = .var array → ∀ index < length,
    machine.memory.load (machine.get .fp + BitVec.ofInt 64 base + 8#64 * BitVec.ofNat 64 index) =
      state.locals.arrays array (BitVec.ofNat 64 index)

/-- The memory of a global holds its value, or those of its elements. -/
structure HoldsGlobal (machine : State) (state : Ir.State) (name : String) : Prop where
  scalar : placed.ScalarGlobal name → 0 < placed.slots name →
    machine.memory.load (placed.globalBase name) = state.get (.global name)
  array : placed.ArrayGlobal name → ∀ index < placed.slots name,
    machine.memory.load (placed.globalBase name + 8#64 * BitVec.ofNat 64 index) =
      state.globals.arrays name (BitVec.ofNat 64 index)

/-- What belongs to a place holds what the state has for it. -/
def HoldsAt (machine : State) (state : Ir.State) : Ir.Location → Prop
  | .global name => placed.HoldsGlobal machine state name
  | place => ∀ home, placed.layout.homes.get? place = some home →
    HoldsHome machine state place home

/-- The state of the machine has all values of the other state, each where it belongs. -/
def Holds (machine : State) (state : Ir.State) : Prop :=
  ∀ place, placed.HoldsAt machine state place

/-- The addresses of the words that belong to a place. -/
inductive HasWord (fp : Word) : Ir.Location → Word → Prop where
  | scalar {name : String} (used : placed.ScalarGlobal name) (some : 0 < placed.slots name) :
      HasWord fp (.global name) (placed.globalBase name)
  | element {name : String} {index : Nat} (used : placed.ArrayGlobal name)
      (within : index < placed.slots name) :
      HasWord fp (.global name) (placed.globalBase name + 8#64 * BitVec.ofNat 64 index)
  | slot {place : Ir.Location} {offset : Int} (own : place.isGlobal = false)
      (found : placed.layout.homes.get? place = some (.slot offset)) :
      HasWord fp place (fp + BitVec.ofInt 64 offset)
  | array {array : String} {base : Int} {length index : Nat}
      (found : placed.layout.homes.get? (.var array) = some (.array base length))
      (within : index < length) :
      HasWord fp (.var array) (fp + BitVec.ofInt 64 base + 8#64 * BitVec.ofNat 64 index)

/-- None of the registers is one that a place lives in, and the frame pointer is not among them. -/
structure Spares (registers : List Reg) : Prop where
  homes : ∀ {place register}, placed.layout.homes.get? place = some (.reg register) →
    register ∉ registers
  fp : Reg.fp ∉ registers

/-- The memory that the operand names is that of globals and arrays in use. -/
structure Knows (operand : Ir.Operand) : Prop where
  globals : ∀ name ∈ operand.globals, placed.ScalarGlobal name
  arrays : ∀ array ∈ operand.arrays, placed.frames array = false → placed.ArrayGlobal array

variable {placed}

theorem spares_temporaries (placed : Placement) : placed.Spares Reg.temporaries :=
  ⟨fun found => (not_temporary_of_home found).1, by decide⟩

theorem Spares.mono {registers fewer : List Reg} (spares : placed.Spares registers)
    (subset : fewer ⊆ registers) : placed.Spares fewer :=
  ⟨fun found inside => spares.homes found (subset inside), fun inside => spares.fp (subset inside)⟩

theorem knows_of_mem {instr : Ir.Instr} (listed : instr ∈ placed.function.code)
    {operand : Ir.Operand} (member : operand ∈ instr.operands) : placed.Knows operand where
  globals _ inside := .inr ⟨instr, listed, operand, member, inside⟩
  arrays _ inside out := .inr ⟨out, instr, listed, operand, member, inside⟩

theorem Knows.index {array : String} {index : Ir.Operand} {type : DataType}
    (knows : placed.Knows (.element array index type)) : placed.Knows index where
  globals := knows.globals
  arrays other inside := knows.arrays other (.tail _ inside)

theorem holdsAt_of_home {machine : State} (own : place.isGlobal = false) :
    placed.HoldsAt machine state place ↔ ∀ home, placed.layout.homes.get? place = some home →
      HoldsHome machine state place home := by
  cases place with
  | global name => cases own
  | _ => rfl

section

variable {machine after : State} {before next : Ir.State}

/-- What is held at a place is held on to if its registers and words are left alone. -/
theorem HoldsAt.carry (held : placed.HoldsAt machine before place)
    (fp : after.get .fp = machine.get .fp) (same : SameAt place before next)
    (registers : ∀ {register}, placed.layout.homes.get? place = some (.reg register) →
      after.get register = machine.get register)
    (words : ∀ {address}, placed.HasWord (machine.get .fp) place address →
      after.memory.load address = machine.memory.load address) :
    placed.HoldsAt after next place := by
  cases own : place.isGlobal with
  | true =>
    cases place with
    | global name =>
      refine ⟨fun used some => ?_, fun used index within => ?_⟩
      · rw [words (.scalar used some), same.get_eq]
        exact held.scalar used some
      · rw [words (.element used within), same.globals name rfl]
        exact held.array used index within
    | _ => cases own
  | false =>
    rw [holdsAt_of_home own] at held ⊢
    intro home found
    have kept := held home found
    cases home with
    | reg register =>
      rw [HoldsHome, registers found, same.get_eq]
      exact kept
    | slot offset =>
      rw [HoldsHome, fp, words (.slot own found), same.get_eq]
      exact kept
    | array base length =>
      rintro array rfl index within
      rw [fp, words (.array found within), same.arrays array rfl]
      exact kept array rfl index within

theorem Holds.keep (holds : placed.Holds machine state)
    {registers : List Reg} (spares : placed.Spares registers)
    (confined : Confined registers [] machine after) : placed.Holds after state :=
  fun place => (holds place).carry (confined.get_eq _ spares.fp)
    ⟨rfl, fun _ _ => rfl, fun _ _ => rfl⟩ (fun found => confined.get_eq _ (spares.homes found))
    fun _ => by rw [confined.memory_eq_of_nil]

end

end Placement

/-- Where a result goes: a register, or a word of memory. -/
inductive Spot where
  | reg (register : Reg)
  | word (address : Word)

namespace Spot

def read (machine : State) : Spot → Word
  | reg register => machine.get register
  | word address => machine.memory.load address

/-- The registers that belong to the spot. -/
def registers : Spot → List Reg
  | reg register => [register]
  | word _ => []

/-- The memory that belongs to the spot. -/
def spans : Spot → List Span
  | reg _ => []
  | word address => [.word address]

end Spot

namespace Placement

section

variable (placed : Placement)

/-- The storage of a place that is not an array. -/
def placeSpot? (fp : Word) (place : Ir.Location) : Option Spot :=
  match placed.layout.homes.get? place with
  | some (.reg register) => some (.reg register)
  | some (.slot offset) => some (.word (fp + BitVec.ofInt 64 offset))
  | _ => none

/-- The storage of a destination. -/
def spot? (fp : Word) (state : Ir.State) : Ir.Operand → Option Spot
  | .element array index _ =>
    some (.word (placed.arrayBase fp array + 8#64 * placed.value state index))
  | .global name _ => some (.word (placed.globalBase name))
  | dest => dest.location?.bind (placed.placeSpot? fp)

end

variable {placed : Placement} {machine after : State} {state : Ir.State} {stack : Span}

theorem slots_of_scalarGlobal (separate : placed.Separate) (used : placed.ScalarGlobal name) :
    placed.slots name = 1 := by
  unfold slots
  cases found : placed.globals.find? fun global => global.name == name with
  | none => rfl
  | some global =>
    have named : global.name = name := by simpa using find?_some found
    cases count : global.count with
    | none => simp [Ir.Global.slots, count]
    | some length =>
      exact absurd (.inl ⟨global, mem_of_find?_eq_some found, named, by simp [count]⟩)
        (separate.globals name used)

section

variable {place : Ir.Location} {base : Int} {length : Nat}
  (found : placed.layout.homes.get? place = some (.array base length))
include found

theorem array_small : 8 * length ≤ 2 ^ 31 := by
  rcases placed.sound.inside _ _ found with within | ⟨⟨_, _, _, _, impossible⟩, _⟩
  · rcases Nat.eq_zero_or_pos length with none | some
    · omega
    have low := within base ⟨Int.le_refl _, by omega⟩
    have high := within (base + 8 * length - 1) ⟨by omega, by omega⟩
    have reached := placed.sound.reached
    unfold Allocation.reach at reached
    omega
  · cases impossible

theorem array_inside (fp : Word) {index : Nat} (within : index < length) :
    (Span.word (fp + BitVec.ofInt 64 base + 8#64 * BitVec.ofNat 64 index)).Inside
      ((Home.array base length).span fp) := by
  have small := array_small found
  have fits : 8 * length ≤ 2 ^ 64 := by omega
  exact element_inside (fp + BitVec.ofInt 64 base) within fits

end

theorem scalar_inside (some : 0 < placed.slots name) :
    (Span.word (placed.globalBase name)).Inside (placed.region name) := by
  intro address has
  unfold Span.word Span.Has at has
  unfold region Span.Has
  dsimp only at has ⊢
  omega

theorem Divided.element_inside {fp : Word} (divided : placed.Divided fp stack)
    (used : placed.ArrayGlobal name) {index : Nat} (within : index < placed.slots name) :
    (Span.word (placed.globalBase name + 8#64 * BitVec.ofNat 64 index)).Inside
      (placed.region name) :=
  Placement.element_inside (placed.globalBase name) within (divided.small name (.inr used))

end Placement

/-- The states agree in all that does not belong to the place. -/
def SameBut (place : Ir.Location) (before after : Ir.State) : Prop :=
  ∀ other, other ≠ place → SameAt other before after

theorem sameBut_set (state : Ir.State) (place : Ir.Location) (value : Word) :
    SameBut place state (state.set place value) := fun _ differ =>
  ⟨Ir.State.get_set_ne state value differ, fun _ _ => by rw [Ir.State.arrays_set],
    fun _ _ => by cases place <;> rfl⟩

theorem sameBut_setElement (state : Ir.State) (own : Bool) (array : String) (index value : Word) :
    SameBut (if own then .var array else .global array) state
      (state.setElement own array index value) := by
  intro other differ
  refine ⟨Ir.State.get_setElement .., ?_, ?_⟩
  · rintro name rfl
    cases own with
    | true =>
      have differ : name ≠ array := fun same => differ (same ▸ rfl)
      simp [Ir.State.setElement, differ]
    | false => rfl
  · rintro name rfl
    cases own with
    | true => rfl
    | false =>
      have differ : name ≠ array := fun same => differ (same ▸ rfl)
      simp [Ir.State.setElement, differ]

namespace Placement

variable {placed : Placement} {machine after : State} {before next : Ir.State} {stack : Span}

variable {index : Word}

theorem load_element {base : Word} (small : 8 * length ≤ 2 ^ 64) (within : index.toNat < length)
    {registers : List Reg}
    (confined : Confined registers [.word (base + 8#64 * index)] machine after) {position : Nat}
    (within' : position < length) :
    after.memory.load (base + 8#64 * BitVec.ofNat 64 position) =
      if BitVec.ofNat 64 position = index then after.memory.load (base + 8#64 * index)
      else machine.memory.load (base + 8#64 * BitVec.ofNat 64 position) := by
  split
  · next same => rw [same]
  · next differ =>
      refine confined.load_eq fun span member => ?_
      rw [mem_singleton.mp member]
      have number : BitVec.ofNat 64 index.toNat = index := by simp
      rw [← number]
      refine elements_apart base within' within small ?_
      rintro rfl
      exact differ number

theorem arrayBase_of_frame {array : String}
    (found : placed.layout.homes.get? (.var array) = some (.array base length)) (fp : Word) :
    placed.arrayBase fp array = fp + BitVec.ofInt 64 base ∧ placed.length array = length ∧
      placed.frames array = true := by
  simp [arrayBase, Placement.length, frames, found]

theorem arrayBase_of_global {array : String} (out : placed.frames array = false) (fp : Word) :
    placed.arrayBase fp array = placed.globalBase array ∧
      placed.length array = placed.slots array := by
  unfold frames at out
  unfold arrayBase Placement.length
  split at out
  · cases out
  · exact ⟨rfl, rfl⟩

theorem inPlay_of_own (own : place.isGlobal = false) : placed.InPlay place := by
  cases place with
  | global name => cases own
  | _ => exact trivial

theorem HasWord.inside {fp address : Word} (has : placed.HasWord fp place address)
    (small : ∀ name, placed.InPlay (.global name) → (placed.region name).size ≤ 2 ^ 64) :
    ∃ span, placed.InPlay place ∧ placed.storage fp place = some span ∧
      (Span.word address).Inside span := by
  cases has with
  | scalar used some => exact ⟨_, .inl used, rfl, scalar_inside some⟩
  | element used within =>
    exact ⟨_, .inr used, rfl, element_inside _ within (small _ (.inr used))⟩
  | slot own found =>
    exact ⟨_, inPlay_of_own own, storage_eq own found fp, word_inside_slot fp _⟩
  | array found within =>
    exact ⟨_, trivial, storage_eq rfl found fp, array_inside found fp within⟩

section

variable (holds : placed.Holds machine before)
include holds

theorem Holds.setRegister {register : Reg} (own : place.isGlobal = false)
    (found : placed.layout.homes.get? place = some (.reg register))
    (confined : Confined (register :: Reg.temporaries) [] machine after) :
    placed.Holds after (before.set place (after.get register)) := by
  intro other
  by_cases here : other = place
  · subst here
    rw [holdsAt_of_home own]
    intro home found'
    rw [found] at found'
    cases found'
    rw [HoldsHome, Ir.State.get_set_self]
  refine (holds other).carry (confined.get_eq _ fun inside => ?_) (sameBut_set _ _ _ other here)
    (fun found' => confined.get_eq _ fun inside => ?_) fun _ => by rw [confined.memory_eq_of_nil]
  · rcases mem_cons.mp inside with equal | temporary
    · exact (not_temporary_of_home found).2.1 equal.symm
    · exact placed.spares_temporaries.fp temporary
  · rcases mem_cons.mp inside with equal | temporary
    · subst equal
      exact (placed.sound.apart _ _ _ _ found' found here).registers _ rfl rfl
    · exact placed.spares_temporaries.homes found' temporary

variable (divided : placed.Divided (machine.get .fp) stack)
include divided

theorem Holds.write (play : placed.InPlay place) {span : Span}
    (stored : placed.storage (machine.get .fp) place = some span) {written : Word}
    (inside : (Span.word written).Inside span)
    (confined : Confined Reg.temporaries [.word written] machine after)
    (same : SameBut place before next) (here : placed.HoldsAt after next place) :
    placed.Holds after next := by
  have spares := placed.spares_temporaries
  intro other
  by_cases differ : other = place
  · exact differ ▸ here
  refine (holds other).carry (confined.get_eq _ spares.fp) (same other differ)
    (fun found => confined.get_eq _ (spares.homes found)) fun has => ?_
  obtain ⟨span', play', stored', inside'⟩ := has.inside divided.small
  exact divided.load_eq differ play play' stored stored' inside inside' confined

/-- A place that lives in a slot is written there. -/
theorem Holds.setSlot {offset : Int}
    (own : place.isGlobal = false) (found : placed.layout.homes.get? place = some (.slot offset))
    (confined : Confined Reg.temporaries [.word (machine.get .fp + BitVec.ofInt 64 offset)]
      machine after) :
    placed.Holds after (before.set place
      (after.memory.load (machine.get .fp + BitVec.ofInt 64 offset))) := by
  refine holds.write divided (inPlay_of_own own) (storage_eq own found _)
    (word_inside_slot _ offset) confined (sameBut_set _ _ _) ?_
  rw [holdsAt_of_home own]
  intro home found'
  rw [found] at found'
  cases found'
  rw [HoldsHome, confined.get_eq _ placed.spares_temporaries.fp, Ir.State.get_set_self]

/-- A global is written in its memory. -/
theorem Holds.setGlobal (separate : placed.Separate) (used : placed.ScalarGlobal name)
    (confined : Confined Reg.temporaries [.word (placed.globalBase name)] machine after) :
    placed.Holds after (before.set (.global name)
      (after.memory.load (placed.globalBase name))) := by
  have some : 0 < placed.slots name := by
    rw [slots_of_scalarGlobal separate used]
    exact Nat.one_pos
  have play : placed.InPlay (.global name) := .inl used
  refine holds.write divided play rfl (scalar_inside some) confined (sameBut_set _ _ _) ?_
  refine ⟨fun _ _ => ?_, fun array => absurd array (separate.globals name used)⟩
  rw [Ir.State.get_set_self]

theorem Holds.setFrameElement {array : String}
    (found : placed.layout.homes.get? (.var array) = some (.array base length))
    (within : index.toNat < length) (confined : Confined Reg.temporaries
      [.word (machine.get .fp + BitVec.ofInt 64 base + 8#64 * index)] machine after) :
    placed.Holds after (before.setElement true array index
      (after.memory.load (machine.get .fp + BitVec.ofInt 64 base + 8#64 * index))) := by
  have small : 8 * length ≤ 2 ^ 64 := Nat.le_trans (array_small found) (by decide)
  have number : BitVec.ofNat 64 index.toNat = index := by simp
  have inside := array_inside found (machine.get .fp) within
  rw [number] at inside
  have kept := (holdsAt_of_home rfl).mp (holds (.var array)) _ found array rfl
  have play : placed.InPlay (.var array) := trivial
  refine holds.write divided play (storage_eq rfl found _) inside confined
    (sameBut_setElement before true array index _) ?_
  intro home found'
  rw [found] at found'
  cases found'
  intro other named position within'
  cases named
  rw [confined.get_eq _ placed.spares_temporaries.fp,
    load_element small within confined within', kept position within']
  simp [Ir.State.setElement]

theorem Holds.setGlobalElement (separate : placed.Separate)
    (used : placed.ArrayGlobal name) (within : index.toNat < placed.slots name)
    (confined : Confined Reg.temporaries [.word (placed.globalBase name + 8#64 * index)]
      machine after) :
    placed.Holds after (before.setElement false name index
      (after.memory.load (placed.globalBase name + 8#64 * index))) := by
  have play : placed.InPlay (.global name) := .inr used
  have small : 8 * placed.slots name ≤ 2 ^ 64 := divided.small name play
  have number : BitVec.ofNat 64 index.toNat = index := by simp
  have inside := divided.element_inside used within
  rw [number] at inside
  refine holds.write divided play rfl inside confined
    (sameBut_setElement before false name index _) ?_
  refine ⟨fun scalar => absurd used (separate.globals name scalar), fun _ position within' => ?_⟩
  rw [load_element small within confined within', (holds (.global name)).array used position within']
  simp [Ir.State.setElement]

theorem Holds.assign (separate : placed.Separate)
    {dest : Ir.Operand} (knows : placed.Knows dest) (range : placed.InRange before dest)
    {spot : Spot} (there : placed.spot? (machine.get .fp) before dest = some spot)
    (confined : Confined (spot.registers ++ Reg.temporaries) spot.spans machine after) :
    placed.Holds after
      (dest.assign placed.setting placed.frames before (spot.read after)) := by
  have simple (place : Ir.Location) (own : place.isGlobal = false)
      (there : placed.placeSpot? (machine.get .fp) place = some spot) :
      placed.Holds after (before.set place (spot.read after)) := by
    unfold placeSpot? at there
    split at there
    · next register found =>
        cases there
        exact holds.setRegister own found confined
    · next offset found =>
        cases there
        exact holds.setSlot divided own found confined
    · cases there
  cases dest with
  | temp name type => exact simple (.temp name) rfl there
  | var name type => exact simple (.var name) rfl there
  | param name type => exact simple (.param name) rfl there
  | global name type =>
    cases there
    exact holds.setGlobal divided separate (knows.globals name (mem_singleton_self _)) confined
  | label name type | immediate value type => cases there
  | element array index type =>
    obtain ⟨_, whole, within⟩ := range
    cases there
    rw [Ir.Operand.assign, if_neg (by simp [whole])]
    cases own : placed.frames array with
    | true =>
      obtain ⟨base, length, found⟩ := frames_eq_true_iff.mp own
      obtain ⟨start, count, _⟩ := arrayBase_of_frame found (machine.get .fp)
      rw [start] at confined ⊢
      rw [count] at within
      exact holds.setFrameElement divided found within confined
    | false =>
      obtain ⟨start, count⟩ := arrayBase_of_global own (machine.get .fp)
      rw [start] at confined ⊢
      rw [count] at within
      exact holds.setGlobalElement divided separate
        (knows.arrays array (mem_cons_self ..) own) within confined

end

end Placement

end ArmBackend.Machine
