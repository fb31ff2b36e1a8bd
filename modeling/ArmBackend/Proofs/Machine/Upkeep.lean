import ArmBackend.Proofs.Machine.Calls
import ArmBackend.Proofs.Machine.Levels

/-!
# What a function leaves as it found it

A function writes its frame and the arguments that came on the stack, globals, and whatever
lies below its stack pointer.  While it runs, the frame stays set up, what is kept for the
caller stays, and so does all other memory above the stack pointer on entry.
-/

namespace ArmBackend.Machine

open List

open ArmBackend.Frame

variable {dest : Ir.Operand} {state : Ir.State} {count : Nat} {back : State} {address : Word}

namespace Placement

variable (placed : Placement)

/-- The address belongs to a global. -/
def InGlobals (address : Word) : Prop :=
  ∃ name, placed.InPlay (.global name) ∧ (placed.region name).Has address

/-- The words of the arguments that come on the stack. -/
def arrivals (sp : Word) : Span :=
  ⟨sp, 8 * (placed.function.parameters.length - Convention.registerCount)⟩

/-- The bytes that an instruction takes on the stack for the arguments of a call. -/
def room (before : List Ir.Instr) (instr : Ir.Instr) : Nat :=
  if instr.opcode = .call then
    Convention.outgoingArea (Site.argumentCount (Site.inOrder (pendingOf before)))
  else 0

/-- The stack around the stack pointer on entry: so many bytes below it, and above it the arguments
that come on the stack. -/
def seat (sp : Word) (depth : Nat) : Span :=
  ⟨sp - BitVec.ofNat 64 depth,
    depth + 8 * (placed.function.parameters.length - Convention.registerCount)⟩

/-- The function is entered on a stack that has room for its frame and for the arguments of its
calls, and on which no global lies. -/
structure Seated (entry : State) (depth : Nat) : Prop where
  frame : Layout.recordSize + placed.layout.size ≤ depth
  calls : ∀ before instr after, placed.function.code = before ++ instr :: after →
    Layout.recordSize + placed.layout.size + room before instr ≤ depth
  low : depth ≤ (entry.get .sp).toNat
  high : (entry.get .sp).toNat + (placed.arrivals (entry.get .sp)).size ≤ 2 ^ 64
  small : ∀ name, placed.InPlay (.global name) → (placed.region name).size ≤ 2 ^ 64
  apart : ∀ name, placed.InPlay (.global name) →
    (placed.region name).Apart (placed.seat (entry.get .sp) depth)

/-- The frame is set up, and memory above the stack pointer on entry is as it was. -/
structure Steady (entry machine : State) : Prop extends placed.Framed entry machine where
  above : ∀ address, (entry.get .sp).toNat ≤ address.toNat → ¬ placed.InGlobals address →
    ¬ (placed.arrivals (entry.get .sp)).Has address →
      machine.memory address = entry.memory address

/-- A callee gives back the registers that it has to, and changes no memory above the words of its
arguments but that of globals. -/
structure Honours (room : Nat) (atCall back : State) : Prop where
  registers : ∀ register ∈ Reg.kept, back.get register = atCall.get register
  memory : ∀ address, (atCall.get .sp).toNat + room ≤ address.toNat → ¬ placed.InGlobals address →
    back.memory address = atCall.memory address

variable {placed} {entry machine after : State} {depth : Nat}

/-! ## The stack -/

namespace Seated

variable (seated : placed.Seated entry depth)

include seated

theorem offStack : placed.OffStack (entry.get .sp - BitVec.ofNat 64 Layout.recordSize)
    (placed.seat (entry.get .sp) depth) := by
  have frame := seated.frame
  have low := seated.low
  have high := seated.high
  unfold arrivals at high
  dsimp only at high
  have inside := @Span.inside_of_offset (placed.seat (entry.get .sp) depth)
    (depth - (Layout.recordSize + placed.layout.size))
    (placed.layout.size + Layout.recordSize +
      8 * (placed.function.parameters.length - Convention.registerCount))
    (by unfold seat; dsimp only; omega) (by unfold seat; dsimp only; omega)
  have base : (placed.seat (entry.get .sp) depth).base +
      BitVec.ofNat 64 (depth - (Layout.recordSize + placed.layout.size)) =
        entry.get .sp - BitVec.ofNat 64 Layout.recordSize -
          BitVec.ofNat 64 placed.layout.size := by
    unfold seat Layout.recordSize
    unfold Layout.recordSize at frame
    dsimp only
    bv_omega
  rw [base] at inside
  refine ⟨?_, inside, seated.small, seated.apart⟩
  unfold Placement.frame
  dsimp only
  omega

section

variable (has : (placed.frame (entry.get .sp - BitVec.ofNat 64 Layout.recordSize)).Has address)
include has

theorem arrivals_of_frame (above : (entry.get .sp).toNat ≤ address.toNat) :
    (placed.arrivals (entry.get .sp)).Has address := by
  have frame := seated.frame
  have low := seated.low
  unfold Placement.frame Span.Has Layout.recordSize at has
  unfold Layout.recordSize at frame
  unfold arrivals Span.Has
  dsimp only at has ⊢
  bv_omega

theorem le_of_frame {room : Nat} (fits : Layout.recordSize + placed.layout.size + room ≤ depth) :
    (entry.get .sp - BitVec.ofNat 64 Layout.recordSize - BitVec.ofNat 64 placed.layout.size -
      BitVec.ofNat 64 room).toNat + room ≤ address.toNat := by
  have low := seated.low
  have high := seated.high
  unfold arrivals at high
  unfold Placement.frame Span.Has Layout.recordSize at has
  unfold Layout.recordSize at fits ⊢
  dsimp only at has high
  bv_omega

/-- No global lies in the frame. -/
theorem not_inGlobals_of_frame : ¬ placed.InGlobals address := by
  rintro ⟨name, play, inside⟩
  exact seated.apart name play address inside (seated.offStack.frame_inside address has)

end

theorem clear
    (fits : Layout.recordSize + placed.layout.size + Convention.outgoingArea count ≤ depth) :
    placed.Clear (entry.get .sp - BitVec.ofNat 64 Layout.recordSize)
      (outgoing (entry.get .sp - BitVec.ofNat 64 Layout.recordSize -
        BitVec.ofNat 64 placed.layout.size) count) := by
  have low := seated.low
  constructor
  · intro address one two
    have far := seated.le_of_frame two fits
    unfold outgoing Span.Has at one
    dsimp only at one
    bv_omega
  · intro name play
    refine Span.Apart.inside (seated.apart name play).symm ?_ (inside_refl _)
    have inside := @Span.inside_of_offset (placed.seat (entry.get .sp) depth)
      (depth - (Layout.recordSize + placed.layout.size + Convention.outgoingArea count))
      (Convention.outgoingArea count) (by unfold seat; dsimp only; omega)
      (by have high := seated.high; unfold arrivals at high; unfold seat; dsimp only at high ⊢; omega)
    have base : (placed.seat (entry.get .sp) depth).base + BitVec.ofNat 64
        (depth - (Layout.recordSize + placed.layout.size + Convention.outgoingArea count)) =
          entry.get .sp - BitVec.ofNat 64 Layout.recordSize -
            BitVec.ofNat 64 placed.layout.size -
              BitVec.ofNat 64 (Convention.outgoingArea count) := by
      unfold seat Layout.recordSize
      unfold Layout.recordSize at fits
      dsimp only
      bv_omega
    rwa [base] at inside

end Seated

/-! ## What is written -/

theorem spot_inside {fp : Word}
    (small : ∀ name, placed.InPlay (.global name) → (placed.region name).size ≤ 2 ^ 64)
    (knows : placed.Knows dest) (range : placed.InRange state dest)
    (there : placed.spot? fp state dest = some (.word address)) :
    (∃ place home, placed.layout.homes.get? place = some home ∧
      (Span.word address).Inside (home.span fp)) ∨
    ∃ name, placed.InPlay (.global name) ∧ (Span.word address).Inside (placed.region name) := by
  have simple (place : Ir.Location) (there : placed.placeSpot? fp place = some (.word address)) :
      ∃ place home, placed.layout.homes.get? place = some home ∧
        (Span.word address).Inside (home.span fp) := by
    unfold placeSpot? at there
    split at there
    · cases there
    · next offset found =>
        cases there
        exact ⟨place, _, found, word_inside_slot fp offset⟩
    · cases there
  cases dest with
  | temp name type | var name type | param name type => exact .inl (simple _ there)
  | global name type =>
    cases there
    exact .inr ⟨name, .inl (knows.globals name (mem_singleton_self _)), scalar_inside range⟩
  | label name type | immediate value type => cases there
  | element array index type =>
    obtain ⟨_, _, within⟩ := range
    have number : BitVec.ofNat 64 (placed.value state index).toNat = placed.value state index := by
      simp
    cases there
    cases own : placed.frames array with
    | true =>
      obtain ⟨base, length, found⟩ := frames_eq_true_iff.mp own
      obtain ⟨start, count, _⟩ := arrayBase_of_frame found fp
      rw [count] at within
      have inside := array_inside found fp within
      rw [number] at inside
      exact .inl ⟨_, _, found, start ▸ inside⟩
    | false =>
      obtain ⟨start, count⟩ := arrayBase_of_global own fp
      rw [count] at within
      have play : placed.InPlay (.global array) :=
        .inr (knows.arrays array (mem_cons_self ..) own)
      have inside := element_inside (placed.globalBase array) within (small array play)
      rw [number] at inside
      exact .inr ⟨array, play, start ▸ inside⟩

namespace Steady

section

variable (steady : placed.Steady entry machine) (seated : placed.Seated entry depth)
include steady seated

theorem keep (fp : after.get .fp = machine.get .fp) (sp : after.get .sp = machine.get .sp)
    (others : ∀ register ∈ Reg.pool, register ∉ placed.layout.saved →
      after.get register = machine.get register)
    (memory : ∀ address, after.memory address = machine.memory address ∨
      (∃ place home, placed.layout.homes.get? place = some home ∧
        (home.span (machine.get .fp)).Has address) ∨ placed.InGlobals address ∨
      address.toNat < (machine.get .sp).toNat) : placed.Steady entry after := by
  have off := seated.offStack
  have frame := seated.frame
  have low := seated.low
  rw [← steady.fp] at off
  have below {address : Word} (inside : (placed.frame (machine.get .fp)).Has address) :
      (machine.get .sp).toNat ≤ address.toNat := by
    rw [steady.fp] at inside
    have fits : Layout.recordSize + placed.layout.size + 0 ≤ depth := frame
    have far := seated.le_of_frame inside fits
    rw [steady.sp, steady.fp]
    simpa using far
  have kept {address : Word} (inside : (placed.frame (machine.get .fp)).Has address)
      (apart : ∀ place home, placed.layout.homes.get? place = some home →
        ¬ (home.span (machine.get .fp)).Has address) :
      after.memory address = machine.memory address := by
    rcases memory address with same | ⟨place, home, found, touched⟩ | global | under
    · exact same
    · exact absurd touched (apart place home found)
    · exact absurd global (seated.not_inGlobals_of_frame (steady.fp ▸ inside))
    · exact absurd (below inside) (Nat.not_le.mpr under)
  refine ⟨steady.toFramed.keep fp sp others (fun address has => ?_) (fun address has => ?_),
    fun address high own outside => ?_⟩
  · exact kept (record_inside_frame off.frame_small address has) fun _ _ found touched =>
      apart_record found off.frame_small address touched has
  · rw [steady.sp] at has
    exact kept (saves_inside_frame off.frame_small address has) fun _ _ found touched =>
      apart_saves found off.frame_small address touched has
  · rw [← steady.above address high own outside]
    rcases memory address with same | ⟨place, home, found, touched⟩ | global | under
    · exact same
    · have inside := span_inside_frame found off.frame_small address touched
      rw [steady.fp] at inside
      exact absurd (seated.arrivals_of_frame inside high) outside
    · exact absurd global own
    · rw [steady.sp, steady.fp] at under
      unfold Layout.recordSize at frame under
      bv_omega

/-- A destination is written. -/
theorem write (knows : placed.Knows dest) (range : placed.InRange state dest) {spot : Spot}
    (there : placed.spot? (machine.get .fp) state dest = some spot)
    (confined : Confined (spot.registers ++ Reg.temporaries) spot.spans machine after) :
    placed.Steady entry after := by
  have homes {register : Reg} (member : register ∈ spot.registers) :
      ∃ place, placed.layout.homes.get? place = some (.reg register) := home_of_spot there member
  have pointer {register : Reg} (special : ¬ register.IsPlain) (spared : register ∉ Reg.temporaries) :
      after.get register = machine.get register := by
    refine confined.get_eq _ fun member => ?_
    rcases mem_append.mp member with own | temporary
    · obtain ⟨place, found⟩ := homes own
      exact special (placed.isPlain_of_home found)
    · exact spared temporary
  refine steady.keep seated (pointer (by decide) (by decide)) (pointer (by decide) (by decide))
    (fun register pooled free => confined.get_eq _ fun member => ?_) fun address => ?_
  · have apart : ∀ register ∈ Reg.pool, register ∉ Reg.temporaries := by decide
    rcases mem_append.mp member with own | temporary
    · obtain ⟨place, found⟩ := homes own
      exact free ((placed.sound.saved_iff _).mpr ⟨pooled, place, found⟩)
    · exact apart register pooled temporary
  · cases spot with
    | reg register => exact .inl (confined.memory_eq address nofun)
    | word written =>
      by_cases touched : (Span.word written).Has address
      · rcases spot_inside seated.small knows range there with
          ⟨place, home, found, inside⟩ | ⟨name, play, inside⟩
        · exact .inr (.inl ⟨place, home, found, inside address touched⟩)
        · exact .inr (.inr (.inl ⟨name, play, inside address touched⟩))
      · refine .inl (confined.memory_eq address fun span member => ?_)
        rwa [mem_singleton.mp member]

/-- Work in registers that nothing is kept in. -/
theorem work (confined : Confined (Reg.arguments ++ Reg.temporaries) [] machine after) :
    placed.Steady entry after := by
  have spared : ∀ register ∈ .fp :: .sp :: Reg.pool,
      register ∉ Reg.arguments ++ Reg.temporaries := by decide
  exact steady.keep seated (confined.get_eq _ (spared _ (by decide)))
    (confined.get_eq _ (spared _ (by decide)))
    (fun register pooled _ => confined.get_eq _ (spared _ (by simp [pooled])))
    fun address => .inl (confined.memory_eq address nofun)

theorem called
    (fits : Layout.recordSize + placed.layout.size + Convention.outgoingArea count ≤ depth)
    {atCall : State}
    (sp : atCall.get .sp = machine.get .sp - BitVec.ofNat 64 (Convention.outgoingArea count))
    (confined : Confined (.sp :: Reg.arguments ++ Reg.temporaries)
      [outgoing (machine.get .sp) count] machine atCall)
    (honours : placed.Honours (Convention.outgoingArea count) atCall back) :
    placed.Steady entry (back.set .sp (machine.get .sp)) := by
  have spared : ∀ register ∈ .fp :: Reg.pool,
      register ∉ .sp :: Reg.arguments ++ Reg.temporaries ∧ register ∈ Reg.kept ∧
        register ≠ .sp := by decide
  have kept {register : Reg} (listed : register ∈ .fp :: Reg.pool) :
      (back.set .sp (machine.get .sp)).get register = machine.get register := by
    obtain ⟨outside, member, differ⟩ := spared register listed
    rw [State.get_set_ne _ _ differ, honours.registers _ member]
    exact confined.get_eq _ outside
  refine steady.keep seated (kept (by decide)) (State.get_set_self _ _ _ (by decide))
    (fun register pooled _ => kept (mem_cons_of_mem _ pooled)) fun address => ?_
  rw [State.memory_set]
  by_cases global : placed.InGlobals address
  · exact .inr (.inr (.inl global))
  rcases Nat.lt_or_ge address.toNat (machine.get .sp).toNat with under | high
  · exact .inr (.inr (.inr under))
  left
  have low := seated.low
  have area : (machine.get .sp).toNat = (entry.get .sp).toNat -
      (Layout.recordSize + placed.layout.size) := by
    rw [steady.sp, steady.fp]
    unfold Layout.recordSize at fits ⊢
    bv_omega
  rw [honours.memory address (by rw [sp]; bv_omega) global]
  refine confined.memory_eq address fun span member has => ?_
  rw [mem_singleton.mp member] at has
  unfold outgoing Span.Has at has
  dsimp only at has
  bv_omega

theorem returned (honours : placed.Honours 0 machine back) : placed.Steady entry back := by
  have same : back.set .sp (machine.get .sp) = back := by
    rw [← honours.registers .sp (by decide), State.set_get]
  rw [← same]
  have none : Convention.outgoingArea 0 = 0 := rfl
  have sp : machine.get .sp = machine.get .sp - BitVec.ofNat 64 (Convention.outgoingArea 0) := by
    rw [none, BitVec.sub_zero]
  have fits : Layout.recordSize + placed.layout.size + Convention.outgoingArea 0 ≤ depth :=
    seated.frame
  exact steady.called seated fits sp (.refl ..) honours

end

theorem resumed {instr : Ir.Instr} (steady : placed.Steady entry (back.set .sp (machine.get .sp)))
    (seated : placed.Seated entry depth) (fp : back.get .fp = machine.get .fp)
    (resumes : placed.Resumes state instr machine back after)
    (dest : ∀ dest, instr.dest = some dest → placed.Knows dest ∧ placed.InRange state dest) :
    placed.Steady entry after := by
  have confined : Confined
      ((instr.dest.bind (placed.spot? (machine.get .fp) state)).toList.flatMap Spot.registers ++
        Reg.temporaries)
      ((instr.dest.bind (placed.spot? (machine.get .fp) state)).toList.flatMap Spot.spans)
      (back.set .sp (machine.get .sp)) after := by
    refine ⟨fun register outside => ?_, fun register outside => ?_, fun address outside => ?_⟩
    · by_cases pointer : register = .sp
      · rw [pointer, resumes.sp, State.get_set_self _ _ _ (by decide)]
      · rw [State.get_set_ne _ _ pointer]
        refine resumes.confined.get_eq register fun member => ?_
        rcases mem_cons.mp member with same | member
        · exact pointer same
        · exact outside member
    · rw [State.floats_set]
      exact resumes.confined.floats_eq register outside
    · rw [State.memory_set]
      exact resumes.confined.memory_eq address outside
  cases named : instr.dest with
  | none =>
    refine steady.work seated ?_
    rw [named] at confined
    exact confined.mono (subset_append_right _ _) (nil_subset _)
  | some operand =>
    obtain ⟨spot, there, _⟩ := resumes.result operand named
    obtain ⟨knows, range⟩ := dest operand named
    have spots : (instr.dest.bind (placed.spot? (machine.get .fp) state)).toList = [spot] := by
      simp [named, there]
    rw [spots, flatMap_singleton, flatMap_singleton] at confined
    refine steady.write seated knows range ?_ confined
    rw [State.get_set_ne _ _ (by decide), fp]
    exact there

end Steady

end Placement

end ArmBackend.Machine
