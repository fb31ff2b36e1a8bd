import ArmBackend.Machine.Selection
import ArmBackend.Proofs.Frame.Layout
import ArmBackend.Proofs.Machine.Access

/-!
# Functions in memory

A function with its frame stands on a platform, next to the globals of its program.
Memory is divided among the places of the frame, the arrays and the globals, and no byte
belongs to two of them.
-/

namespace ArmBackend.Ir.Operand

/-- The globals that an operand names for a single word, also in the index of an element. -/
def globals : Operand → List String
  | global name _ => [name]
  | element _ index _ => index.globals
  | _ => []

end ArmBackend.Ir.Operand

namespace ArmBackend.Frame.Home

open Machine

/-- Where the bytes of a home begin. -/
def start : Home → Int
  | .reg _ => 0
  | .slot offset => offset
  | .array base _ => base

/-- The count of bytes of a home. -/
def bytes : Home → Nat
  | .reg _ => 0
  | .slot _ => 8
  | .array _ length => 8 * length

theorem covers_iff (home : Home) (byte : Int) :
    home.Covers byte ↔ home.start ≤ byte ∧ byte < home.start + home.bytes := by
  cases home <;> simp [Covers, start, bytes]

variable {home : Home} {low high : Int}

theorem Within.bounds (within : home.Within low high)
    (some : 0 < home.bytes) : low ≤ home.start ∧ home.start + home.bytes ≤ high := by
  have first := within home.start ((home.covers_iff _).mpr ⟨Int.le_refl _, by omega⟩)
  have last := within (home.start + home.bytes - 1) ((home.covers_iff _).mpr ⟨by omega, by omega⟩)
  omega

/-- The bytes of a home in memory. -/
def span (fp : Word) (home : Home) : Span :=
  ⟨fp + BitVec.ofInt 64 home.start, home.bytes⟩

theorem not_has_of_bytes (none : home.bytes = 0) (fp address : Word) :
    ¬ (home.span fp).Has address := by
  unfold span Span.Has
  dsimp only
  omega

theorem Apart.spans {left right : Home} (apart : left.Apart right)
    (inside : left.Within low high) (inside' : right.Within low high)
    (small : high - low ≤ 2 ^ 64) (fp : Word) : (left.span fp).Apart (right.span fp) := by
  rcases Nat.eq_zero_or_pos left.bytes with none | some
  · exact fun address has => absurd has (not_has_of_bytes none fp address)
  rcases Nat.eq_zero_or_pos right.bytes with none' | some'
  · exact fun address _ has => not_has_of_bytes none' fp address has
  have bounds := inside.bounds some
  have bounds' := inside'.bounds some'
  have disjoint : left.start + left.bytes ≤ right.start ∨ right.start + right.bytes ≤ left.start := by
    have one := apart.bytes left.start
    have two := apart.bytes right.start
    rw [covers_iff, covers_iff] at one two
    omega
  exact Span.apart_of_distance disjoint (by omega) (by omega)

end ArmBackend.Frame.Home

namespace ArmBackend.Machine

open ArmBackend.Frame

namespace Reg

/-- The registers that an instruction may use for itself. -/
def temporaries : List Reg :=
  scratch ++ [address, offset]

end Reg

/-- The comparisons that are true of two floats. -/
def FloatOrder.satisfies (order : FloatOrder) : Ir.Opcode → Bool
  | .eq => order == equal
  | .ne => order != equal
  | .lt => order == less
  | .le => order == less || order == equal
  | .gt => order == greater
  | .ge => order == greater || order == equal
  | _ => false

/-- Float operations as the platform does them; a remainder takes three of its operations. -/
def Platform.floatUnit (platform : Platform) : Ir.FloatUnit where
  add := platform.binary .add
  sub := platform.binary .sub
  mul := platform.binary .mul
  div := platform.binary .div
  rem left right :=
    platform.multiplySubtract (platform.truncate (platform.binary .div left right)) right left
  neg := platform.negate
  compare opcode left right := (platform.compare left right).satisfies opcode
  ofInt := platform.ofInt
  toInt := platform.toInt

/-- A function with its frame, next to the globals of its program, on a platform. -/
structure Placement where
  platform : Platform
  globals : List Ir.Global
  function : Ir.Function
  layout : Layout
  laid : Layout.ofFunction function = .ok layout

variable {home : Home} {place : Ir.Location} {fp : Word}

namespace Placement

variable (placed : Placement)

def site : Site :=
  ⟨placed.layout, placed.globals⟩

/-- What three-address code finds around it on the platform. -/
def setting : Ir.Setting :=
  ⟨placed.platform.floatUnit, fun name => placed.platform.symbol (Symbol.ofLabel name)⟩

/-- The frame has the array. -/
def frames (array : String) : Bool :=
  match placed.layout.homes.get? (.var array) with
  | some (.array _ _) => true
  | _ => false

/-- The words of a global; one that the program does not define counts as a single word. -/
def slots (name : String) : Nat :=
  ((placed.globals.find? fun global => global.name == name).map Ir.Global.slots).getD 1

/-- The address of a global. -/
def globalBase (name : String) : Word :=
  placed.platform.symbol (Symbol.ofGlobal name)

/-- The memory of a global. -/
def region (name : String) : Span :=
  ⟨placed.globalBase name, 8 * placed.slots name⟩

/-- The count of elements of an array. -/
def length (array : String) : Nat :=
  match placed.layout.homes.get? (.var array) with
  | some (.array _ length) => length
  | _ => placed.slots array

/-- The address of the first element of an array. -/
def arrayBase (fp : Word) (array : String) : Word :=
  match placed.layout.homes.get? (.var array) with
  | some (.array base _) => fp + BitVec.ofInt 64 base
  | _ => placed.globalBase array

/-- The value of an operand. -/
def value (state : Ir.State) (operand : Ir.Operand) : Word :=
  operand.value placed.setting placed.frames state

/-- All accesses that the operand makes lie inside the memory that they are for. -/
def InRange (state : Ir.State) : Ir.Operand → Prop
  | .global name _ => 0 < placed.slots name
  | .element array index _ =>
    InRange state index ∧ index.type.isFloat = false ∧
      (placed.value state index).toNat < placed.length array
  | _ => True

/-- The global is one that holds a single word, by its definition or by its use. -/
def ScalarGlobal (name : String) : Prop :=
  (∃ global ∈ placed.globals, global.name = name ∧ global.count = none) ∨
    ∃ instr ∈ placed.function.code, ∃ operand ∈ instr.operands, name ∈ operand.globals

/-- The global is an array, by its definition or by its use. -/
def ArrayGlobal (name : String) : Prop :=
  (∃ global ∈ placed.globals, global.name = name ∧ global.count.isSome) ∨
    placed.frames name = false ∧
      ∃ instr ∈ placed.function.code, ∃ operand ∈ instr.operands, name ∈ operand.arrays

/-- The memory that belongs to the place matters: it is in the frame, or that of a global in use. -/
def InPlay : Ir.Location → Prop
  | .global name => placed.ScalarGlobal name ∨ placed.ArrayGlobal name
  | _ => True

/-- The bytes that belong to the frame, with the arguments that came on the stack. -/
def frame (fp : Word) : Span :=
  ⟨fp - BitVec.ofNat 64 placed.layout.size,
    placed.layout.size + Layout.recordSize +
      8 * (placed.function.parameters.length - Convention.registerCount)⟩

/-- The part of the stack in use has the frame in it, and no global. -/
structure OffStack (fp : Word) (stack : Span) : Prop where
  frame_small : (placed.frame fp).size ≤ 2 ^ 64
  frame_inside : (placed.frame fp).Inside stack
  small : ∀ name, placed.InPlay (.global name) → (placed.region name).size ≤ 2 ^ 64
  off_stack : ∀ name, placed.InPlay (.global name) → (placed.region name).Apart stack

/-- Memory is divided: globals lie apart from the stack and from each other. -/
structure Divided (fp : Word) (stack : Span) : Prop extends placed.OffStack fp stack where
  apart : ∀ one two, placed.InPlay (.global one) → placed.InPlay (.global two) → one ≠ two →
    (placed.region one).Apart (placed.region two)

/-- Names of arrays are not used for single words. -/
structure Separate : Prop where
  locals : ∀ place instr, placed.function.Reserves place instr →
    ¬ placed.function.UsesScalar place
  globals : ∀ name, placed.ScalarGlobal name → ¬ placed.ArrayGlobal name

variable {placed}

theorem sound (placed : Placement) : placed.layout.Sound placed.function :=
  Layout.sound_ofFunction placed.laid

theorem frames_eq_true_iff {array : String} :
    placed.frames array = true ↔
      ∃ base length, placed.layout.homes.get? (.var array) = some (.array base length) := by
  unfold frames
  split
  · next base length found => exact ⟨fun _ => ⟨base, length, found⟩, fun _ => rfl⟩
  · next other =>
      refine ⟨nofun, ?_⟩
      rintro ⟨base, length, found⟩
      exact absurd found (other base length)

theorem Separate.frames_eq (separate : placed.Separate) :
    placed.frames = placed.function.owns := by
  funext array
  rw [Bool.eq_iff_iff, frames_eq_true_iff, Ir.Function.owns_iff]
  constructor
  · rintro ⟨base, length, found⟩
    obtain ⟨instr, reserves, _⟩ := Layout.reserves_of_array placed.laid found
    exact ⟨instr, reserves⟩
  · rintro ⟨instr, reserves⟩
    exact Layout.array_of_reserves placed.laid reserves (separate.locals _ instr reserves)

/-! ## Registers that places live in -/

variable {register : Reg} {length : Nat}

theorem not_temporary_of_home (found : placed.layout.homes.get? place = some (.reg register)) :
    register ∉ Reg.temporaries ∧ register ≠ .fp ∧ register ≠ .sp ∧ register ≠ .zr := by
  have spared : ∀ register ∈ Reg.arguments ++ Reg.pool, register ∉ Reg.temporaries ∧
      register ≠ .fp ∧ register ≠ .sp ∧ register ≠ .zr := by decide
  exact spared register (List.mem_append.mpr (placed.sound.registers place register found))

variable {other : Ir.Location}

/-! ## Storages and what keeps them apart -/

/-- The bytes of a home lie within the frame. -/
theorem within_of_home (found : placed.layout.homes.get? place = some home) :
    home.Within (-placed.layout.size) (Layout.recordSize +
      8 * (placed.function.parameters.length - Convention.registerCount : Nat)) := by
  have area : placed.layout.spillArea ≤ placed.layout.size := by
    rw [Layout.size_eq placed.sound.reached placed.sound.saved_sublist.length_le]
    omega
  rcases placed.sound.inside place home found with within | ⟨⟨position, offset, named, arrives, rfl⟩, _⟩
  · exact within.mono (by omega) (by omega)
  · unfold Convention.incoming? at arrives
    split at arrives
    · cases arrives
    · cases arrives
      obtain ⟨parameter, there, _⟩ := Option.bind_eq_some_iff.mp named
      have few := (List.getElem?_eq_some_iff.mp there).1
      exact (Home.within_slot _).mono (by omega) (by omega)

theorem span_inside_frame (found : placed.layout.homes.get? place = some home)
    (small : (placed.frame fp).size ≤ 2 ^ 64) : (home.span fp).Inside (placed.frame fp) := by
  rcases Nat.eq_zero_or_pos home.bytes with none | some
  · exact fun address has => absurd has (Home.not_has_of_bytes none fp address)
  have bounds := (within_of_home found).bounds some
  obtain ⟨distance, above⟩ := Int.eq_ofNat_of_zero_le
    (show 0 ≤ home.start + placed.layout.size by omega)
  have base : fp + BitVec.ofInt 64 home.start =
      (placed.frame fp).base + BitVec.ofNat 64 distance := by
    have same : home.start = distance - placed.layout.size := by omega
    rw [same, Int.sub_eq_add_neg, BitVec.ofInt_add, BitVec.ofInt_neg, BitVec.ofInt_natCast,
      BitVec.ofInt_natCast]
    unfold frame
    dsimp only
    bv_omega
  unfold Home.span
  rw [base]
  refine Span.inside_of_offset ?_ small
  unfold frame
  dsimp only
  omega

variable (placed)

/-- The memory that belongs to a place. -/
def storage (fp : Word) : Ir.Location → Option Span
  | .global name => some (placed.region name)
  | place => (placed.layout.homes.get? place).map (Home.span fp)

variable {placed}

theorem storage_eq (own : place.isGlobal = false)
    (found : placed.layout.homes.get? place = some home) (fp : Word) :
    placed.storage fp place = some (home.span fp) := by
  cases place with
  | global name => cases own
  | _ => simp [storage, found]

theorem home_of_storage {span : Span} (own : place.isGlobal = false)
    (stored : placed.storage fp place = some span) :
    ∃ home, placed.layout.homes.get? place = some home ∧ span = home.span fp := by
  cases place with
  | global name => cases own
  | _ =>
    obtain ⟨home, found, rfl⟩ := Option.map_eq_some_iff.mp stored
    exact ⟨home, found, rfl⟩

namespace Divided

variable {fp : Word} {stack span span' : Span}

theorem storages_apart (divided : placed.Divided fp stack)
    (differ : place ≠ other) (play : placed.InPlay place) (play' : placed.InPlay other)
    (stored : placed.storage fp place = some span)
    (stored' : placed.storage fp other = some span') : span.Apart span' := by
  have inside {home : Home} {spot : Ir.Location}
      (found : placed.layout.homes.get? spot = some home) : (home.span fp).Inside stack :=
    fun address has => divided.frame_inside address
      (span_inside_frame found divided.frame_small address has)
  cases own : place.isGlobal with
  | true =>
    cases place with
    | global name =>
      cases stored
      cases own' : other.isGlobal with
      | true =>
        cases other with
        | global name' =>
          cases stored'
          exact divided.apart _ _ play play' fun same => differ (same ▸ rfl)
        | _ => cases own'
      | false =>
        obtain ⟨home, found, rfl⟩ := home_of_storage own' stored'
        exact fun address here there =>
          divided.off_stack name play address here (inside found address there)
    | _ => cases own
  | false =>
    obtain ⟨home, found, rfl⟩ := home_of_storage own stored
    cases own' : other.isGlobal with
    | true =>
      cases other with
      | global name' =>
        cases stored'
        exact fun address here there =>
          divided.off_stack name' play' address there (inside found address here)
      | _ => cases own'
    | false =>
      obtain ⟨home', found', rfl⟩ := home_of_storage own' stored'
      have bounded := divided.frame_small
      unfold frame at bounded
      dsimp only at bounded
      exact (placed.sound.apart _ _ _ _ found found' differ).spans (within_of_home found)
        (within_of_home found') (by omega) fp

theorem load_eq (divided : placed.Divided fp stack) (differ : other ≠ place)
    (play : placed.InPlay place) (play' : placed.InPlay other)
    (stored : placed.storage fp place = some span) (stored' : placed.storage fp other = some span')
    {written address : Word} (inside : (Span.word written).Inside span)
    (inside' : (Span.word address).Inside span') {registers : List Reg} {before after : State}
    (confined : Confined registers [.word written] before after) :
    after.memory.load address = before.memory.load address := by
  refine confined.load_eq fun changed member => ?_
  rw [List.mem_singleton.mp member]
  exact (divided.storages_apart differ play' play stored' stored).inside inside' inside

end Divided

/-! ## Words within storages -/

theorem inside_refl (span : Span) : span.Inside span :=
  fun _ => id

theorem word_inside_slot (fp : Word) (offset : Int) :
    (Span.word (fp + BitVec.ofInt 64 offset)).Inside (Home.span fp (.slot offset)) :=
  inside_refl _

theorem eight_mul_ofNat (index : Nat) :
    8#64 * BitVec.ofNat 64 index = BitVec.ofNat 64 (8 * index) := by
  rw [BitVec.ofNat_mul]

/-- An element lies in the range of its array. -/
theorem element_inside (base : Word) {index : Nat} (within : index < length)
    (small : 8 * length ≤ 2 ^ 64) :
    (Span.word (base + 8#64 * BitVec.ofNat 64 index)).Inside ⟨base, 8 * length⟩ := by
  rw [eight_mul_ofNat]
  exact @Span.inside_of_offset ⟨base, 8 * length⟩ (8 * index) 8 (by dsimp only; omega) small

/-- Elements at two indices have no byte in common. -/
theorem elements_apart (base : Word) {first second : Nat} (one : first < length)
    (two : second < length) (small : 8 * length ≤ 2 ^ 64) (differ : first ≠ second) :
    (Span.word (base + 8#64 * BitVec.ofNat 64 first)).Apart
      (Span.word (base + 8#64 * BitVec.ofNat 64 second)) := by
  rw [eight_mul_ofNat, eight_mul_ofNat, ← BitVec.ofInt_natCast, ← BitVec.ofInt_natCast]
  exact Span.apart_of_distance (by omega) (by omega) (by omega)

end Placement

end ArmBackend.Machine
