import ArmBackend.Proofs.Machine.Arguments
import ArmBackend.Proofs.Machine.Frames

/-!
# Calls between functions

A caller puts the arguments where the callee looks for them.  The caller counts words on the
stack from its stack pointer and the callee from its frame pointer, with the saved pair in
between.  When control comes back, the result goes to its destination.
-/

namespace ArmBackend.Frame.Convention

open List Option

open Machine

theorem register?_or_incoming? (position : Nat) :
    (∃ register, register? position = some register) ∨
      ∃ offset, incoming? position = some offset := by
  rcases Nat.lt_or_ge position registerCount with early | late
  · exact .inl ⟨_, getElem?_eq_getElem early⟩
  · exact .inr ⟨_, if_neg (Nat.not_lt.mpr late)⟩

theorem incoming?_eq_outgoing? {position offset : Nat}
    (found : incoming? position = some offset) (near : position < reach) (sp : Word) :
    ∃ offset', outgoing? position = some offset' ∧
      sp - BitVec.ofNat 64 Layout.recordSize + BitVec.ofNat 64 offset =
        sp + BitVec.ofNat 64 offset' := by
  obtain ⟨late, rfl⟩ := incoming?_eq_some found
  refine ⟨8 * (position - registerCount), ?_, ?_⟩
  · unfold reach at near
    rw [outgoing?, if_neg (by omega), narrowed, Nat.mod_eq_of_lt (by omega)]
  · rw [BitVec.ofNat_add, ← BitVec.add_assoc, BitVec.sub_add_cancel]

end ArmBackend.Frame.Convention

theorem ArmBackend.Ir.Operand.isGlobal_of_mem_places {operand : Operand} {place : Location}
    (member : place ∈ operand.places) : place.isGlobal = false := by
  induction operand with
  | temp name type | var name type | param name type => rw [List.mem_singleton.mp member]; rfl
  | element array index type ih => exact ih member
  | global name type | label name type | immediate value type => cases member

namespace ArmBackend.Machine

open List Option

open ArmBackend.Frame

theorem mem_pendingOf {code : List Ir.Instr} {entry : Nat × Ir.Operand}
    (member : entry ∈ pendingOf code) : ∃ instr ∈ code, entry.2 ∈ instr.operands := by
  obtain ⟨instr, listed, _, given⟩ := arg_of_mem_pendingOf member
  obtain ⟨position, _, given⟩ := bind_eq_some_iff.mp given
  obtain ⟨value, source, given⟩ := bind_eq_some_iff.mp given
  cases given
  exact ⟨instr, listed, by simp [Ir.Instr.operands, Ir.Instr.sources, source]⟩

namespace Placement

variable (placed : Placement)

/-- The machine holds the values of the state, in which the word of an array is its address. -/
structure Depicts (machine : State) (state : Ir.State) : Prop where
  holds : placed.Holds machine state
  addressed : ∀ place, place.isGlobal = false → placed.Addressed (machine.get .fp) state place

/-- All that the function keeps in registers, in its frame and in globals is as it was. -/
structure Untouched (machine after : State) : Prop where
  registers : ∀ register ∈ .fp :: Reg.pool, after.get register = machine.get register
  frame : ∀ address, (placed.frame (machine.get .fp)).Has address →
    after.memory address = machine.memory address
  globals : ∀ name, placed.InPlay (.global name) → ∀ address, (placed.region name).Has address →
    after.memory address = machine.memory address

/-- The function has been entered and finds the arguments that were passed. -/
structure Receives (values : List (Nat × Word)) (atCall inside : State) : Prop where
  slots : ∀ entry ∈ values, ∀ offset, Convention.incoming? entry.1 = some offset →
    ∃ offset', Convention.outgoing? entry.1 = some offset' ∧
      inside.get .fp + BitVec.ofNat 64 offset = atCall.get .sp + BitVec.ofNat 64 offset'
  homes : ∀ entry ∈ values, ∀ place home, placed.Lodged entry.1 place →
    placed.layout.homes.get? place = some home → homeWord inside home = entry.2

variable {placed} {machine atCall : State} {state : Ir.State}

theorem depicts_readOff (placed : Placement) (machine : State) :
    placed.Depicts machine (placed.readOff machine) :=
  ⟨placed.holds_readOff machine, fun _ own _ _ found => get_readOff own found machine⟩

theorem Depicts.reads (depicts : placed.Depicts machine state) {instr : Ir.Instr}
    (listed : instr ∈ placed.function.code) {operand : Ir.Operand}
    (named : operand ∈ instr.operands) (range : placed.InRange state operand) :
    placed.Reads (machine.get .fp) state operand :=
  ⟨knows_of_mem listed named, range, fun place member =>
    depicts.addressed place (Ir.Operand.isGlobal_of_mem_places member)⟩

/-- The arguments that wait may be read. -/
theorem Depicts.reads_pending (depicts : placed.Depicts machine state)
    {before rest : List Ir.Instr} {ahead : List Instr} (here : placed.At before rest ahead)
    (range : ∀ entry ∈ pendingOf before, placed.InRange state entry.2) :
    ∀ entry ∈ pendingOf before, placed.Reads (machine.get .fp) state entry.2 := by
  intro entry member
  obtain ⟨instr, listed, named⟩ := mem_pendingOf member
  have code : instr ∈ placed.function.code := here.1 ▸ mem_append_left _ listed
  exact depicts.reads code named (range entry member)

theorem Gathers.untouched {count : Nat} (gathers : placed.Gathers state count machine atCall)
    (clear : placed.Clear (machine.get .fp) (outgoing (machine.get .sp) count)) :
    placed.Untouched machine atCall := by
  have spared : ∀ register ∈ .fp :: Reg.pool,
      register ∉ .sp :: Reg.arguments ++ Reg.temporaries := by decide
  refine ⟨fun register listed => gathers.confined.get_eq _ (spared register listed),
    fun address has => gathers.confined.memory_eq address fun span member touched => ?_,
    fun name play address has => gathers.confined.memory_eq address fun span member touched => ?_⟩
  · rw [mem_singleton.mp member] at touched
    exact clear.frame address touched has
  · rw [mem_singleton.mp member] at touched
    exact clear.globals name play address touched has

theorem Gathers.aligned {count : Nat} (gathers : placed.Gathers state count machine atCall)
    (aligned : 16 ∣ (machine.get .sp).toNat) : 16 ∣ (atCall.get .sp).toNat := by
  have area := Convention.outgoingArea_aligned count
  rw [gathers.sp, BitVec.toNat_sub, BitVec.toNat_ofNat]
  omega

/-- The values of arguments, with their positions. -/
def valuesOf (placed : Placement) (state : Ir.State) (arguments : Pending) : List (Nat × Word) :=
  arguments.map fun entry => (entry.1, placed.value state entry.2)

theorem Passes.receives {arguments : Pending} (passes : placed.Passes state arguments atCall)
    (near : ∀ entry ∈ arguments, entry.1 < Convention.reach)
    {called : Placement} {entry inside : State} (entered : called.Entered entry inside)
    (registers : ∀ register, register ≠ .lr → entry.get register = atCall.get register)
    (memory : entry.memory = atCall.memory) :
    called.Receives (placed.valuesOf state arguments) atCall inside := by
  have slots : ∀ argument ∈ arguments, ∀ offset, Convention.incoming? argument.1 = some offset →
      ∃ offset', Convention.outgoing? argument.1 = some offset' ∧
        inside.get .fp + BitVec.ofNat 64 offset = atCall.get .sp + BitVec.ofNat 64 offset' := by
    intro argument listed offset found
    rw [entered.fp, registers .sp (by decide)]
    exact Convention.incoming?_eq_outgoing? found (near argument listed) _
  refine ⟨forall_mem_map.mpr slots, fun value member place home lodged found => ?_⟩
  obtain ⟨argument, listed, rfl⟩ := mem_map.mp member
  rcases Convention.register?_or_incoming? argument.1 with ⟨register, passed⟩ | ⟨offset, arrives⟩
  · have other : ∀ register ∈ Reg.arguments, register ≠ .lr := by decide
    rw [entered.inRegister _ place home register lodged found passed,
      registers register (other _ (Convention.mem_arguments_of_register? passed))]
    exact passes.registers argument listed register passed
  · obtain ⟨offset', outgoing, same⟩ := slots argument listed offset arrives
    rw [(entered.onStack _ place home offset lodged found arrives).2, same, memory]
    exact passes.words argument listed offset' outgoing

variable {world : World} {instr : Ir.Instr} {before after : List Ir.Instr} {ahead : List Instr}

/-- Caller and callee agree.  A call comes to its branch with the stack aligned, all arguments in
their registers and words, and all else untouched.  A function that is entered from there finds
every argument in the home of its parameter.  And if the callee keeps what it has to keep, the
stack pointer comes back and the result goes to its destination. -/
theorem call_agrees (on : placed.platform = world.toPlatform) (opcode : instr.opcode = .call)
    (here : placed.At before (instr :: after) ahead) {count : Nat}
    (positions : ((pendingOf before).map Prod.fst).Perm (List.range count)) (few : count < 2 ^ 28)
    {stack : Span} (off : placed.OffStack (machine.get .fp) stack)
    (clear : placed.Clear (machine.get .fp) (outgoing (machine.get .sp) count))
    (aligned : 16 ∣ (machine.get .sp).toNat) (depicts : placed.Depicts machine state)
    (range : ∀ entry ∈ pendingOf before, placed.InRange state entry.2)
    (body : List Instr) (calls : List Call) :
    ∃ callee rest atCall, instr.label = some callee ∧
      Config.Reaches world body (.running ahead machine calls)
        (.running (.bl callee :: rest) atCall calls) ∧
      16 ∣ (atCall.get .sp).toNat ∧ placed.Passes state (pendingOf before) atCall ∧
      placed.Untouched machine atCall ∧
      (∀ (called : Placement) assembled link, called.platform = world.toPlatform →
        (Function.ofIr called.globals called.function).result = .ok assembled →
        called.function.parameters.length < 2 ^ 28 →
          ∃ inner inside, Config.Reaches world assembled.body
              (start assembled.body (atCall.set .lr link)) (.running inner inside []) ∧
            called.At [] called.function.code inner ∧
            called.Receives (placed.valuesOf state (pendingOf before)) atCall inside) ∧
      ((∀ register ∈ Reg.kept,
          (world.callee calls callee atCall).get register = atCall.get register) →
        ∃ ahead' final, Config.Reaches world body (.running ahead machine calls)
            (.running ahead' final (calls ++ [⟨callee, atCall⟩])) ∧
          placed.At (before ++ [instr]) after ahead' ∧
          placed.Resumes state instr machine (world.callee calls callee atCall) final) := by
  have counted := Site.argumentCount_eq (Site.positions_inOrder positions)
  have near : count ≤ Convention.reach := by
    unfold Convention.reach
    omega
  have distinct : ((pendingOf before).map Prod.fst).Nodup :=
    positions.nodup_iff.mpr List.nodup_range
  have reads := depicts.reads_pending here range
  obtain ⟨callee, front, behind, ahead', named, rfl, inner, inner', there, gathers, passes,
    resumes⟩ := call_parts opcode here off counted near clear depicts.holds reads
  rw [on] at gathers passes resumes
  have reached : Config.Reaches world body _ _ :=
    Config.reaches_inner inner (.bl callee :: (behind ++ ahead')) machine calls
  refine ⟨callee, behind ++ ahead', _, named, reached, gathers.aligned aligned, passes distinct,
    gathers.untouched clear, fun called assembled link on' done most => ?_, fun kept => ?_⟩
  · obtain ⟨inner, body', there⟩ := body_of_ofIr done
    have bound := called.size_le
    have fits : (called.frame (((execAll world.toPlatform front machine).set .lr link).get .sp -
        BitVec.ofNat 64 Layout.recordSize)).size ≤ 2 ^ 64 := by
      unfold frame Layout.recordSize
      unfold Layout.largestSize at bound
      dsimp only
      omega
    have below : ∀ entry ∈ pendingOf before, entry.1 < Convention.reach := by
      intro entry member
      have less := mem_range.mp (positions.mem_iff.mp (mem_map_of_mem member))
      omega
    refine ⟨inner, _, ?_, there, (passes distinct).receives below (entered _ fits rfl)
      (fun register other => State.get_set_ne _ _ other) (State.memory_set ..)⟩
    rw [body', on']
    exact Config.reaches_inner (inner_prologue called.layout) inner _ []
  · exact ⟨ahead', _, (reached.trans (Config.reaches_step _)).trans
      (Config.reaches_inner inner' ahead' _ _), there, resumes _ kept⟩

/-- Nine operands: a value in a register, constants, and an element. -/
def relayed : List Ir.Operand :=
  .param "p" .int :: (List.range 7).map (fun number => .immediate (.int number) .int) ++
    [.element "row" (.immediate (.int 0) .int) .int]

/-- The instructions of a function in front of its call. -/
def relayArguments : List Ir.Instr :=
  .allocArray (.var "row" .int) 1 :: relayed.zipIdx.map fun entry => .arg entry.1 entry.2

/-- A call with a destination. -/
def relayCall : Ir.Instr :=
  .call "nine" (some (.var "r" .int))

/-- A function that calls another one with nine arguments. -/
def relay : Placement where
  platform := World.flat.toPlatform
  globals := []
  function :=
    { name := "relay"
      parameters := [.param "p" .int]
      code := relayArguments ++ [relayCall, .ret (some (.var "r" .int))] }
  layout := ⟨⟨[(.var "r", .reg (.x 20)), (.param "p", .reg (.x 19)), (.var "row", .array (-8) 1)]⟩,
    [.x 19, .x 20], 8, false, [(.x 0, .reg (.x 19))]⟩
  laid := rfl

/-- A function with nine parameters, which returns the last one. -/
def nine : Placement where
  platform := World.flat.toPlatform
  globals := []
  function :=
    { name := "nine"
      parameters := ["a", "b", "c", "d", "e", "f", "g", "h", "i"].map (.param · .int)
      code := [.ret (some (.param "i" .int))] }
  layout := ⟨⟨[(.param "i", .slot 16), (.param "h", .reg (.x 7)), (.param "g", .reg (.x 6)),
    (.param "f", .reg (.x 5)), (.param "e", .reg (.x 4)), (.param "d", .reg (.x 3)),
    (.param "c", .reg (.x 2)), (.param "b", .reg (.x 1)), (.param "a", .reg (.x 0))]⟩,
    [], 0, true, []⟩
  laid := rfl

/-- A function that names no globals and reserves its arrays has none in play. -/
theorem not_inPlay_global {placed : Placement} (none : placed.globals = [])
    (own : ∀ instr ∈ placed.function.code, ∀ operand ∈ instr.operands,
      operand.globals = [] ∧ ∀ name ∈ operand.arrays, placed.frames name = true) (name : String) :
    ¬ placed.InPlay (.global name) := by
  unfold InPlay ScalarGlobal ArrayGlobal
  rw [none]
  rintro ((⟨global, ⟨⟩, _⟩ | ⟨instr, listed, operand, member, inside⟩) |
    (⟨global, ⟨⟩, _⟩ | ⟨outside, instr, listed, operand, member, inside⟩))
  · rw [(own instr listed operand member).1] at inside
    cases inside
  · rw [(own instr listed operand member).2 name inside] at outside
    cases outside

theorem relay_private (name : String) : ¬ relay.InPlay (.global name) :=
  not_inPlay_global rfl (by decide) name

theorem nine_lodged : nine.Lodged 8 (.param "i") := by
  have names : ∀ other < 9, (nine.function.parameters[other]?).bind Ir.Operand.location? =
      some (.param "i") → other = 8 := by decide
  refine ⟨rfl, fun other found => ?_, fun base length => nofun, fun _ name listed => by cases listed⟩
  refine names other ?_ found
  obtain ⟨parameter, there, _⟩ := bind_eq_some_iff.mp found
  exact (List.getElem?_eq_some_iff.mp there).1

theorem exists_ok {ε α : Type} {result : Except ε α} (fine : result.toBool = true) :
    ∃ value, result = .ok value := by
  cases result with
  | error cause => cases fine
  | ok value => exact ⟨value, rfl⟩

theorem relay_at : ∃ ahead,
    relay.At relayArguments [relayCall, .ret (some (.var "r" .int))] ahead := by
  have sorted : Site.inOrder (pendingOf relayArguments) = pendingOf relayArguments :=
    mergeSort_of_pairwise (by decide)
  have fine : (relay.site.select (pendingOf relayArguments) relayCall).run.toBool = true := by
    simp only [Site.select, relayCall, Ir.Instr.call, Site.call, sorted]
    decide +kernel
  obtain ⟨code, calls⟩ := exists_ok fine
  have selected : ∃ others, (selectCode relay.site relay.function.name (pendingOf relayArguments)
      [relayCall, .ret (some (.var "r" .int))]).result = .ok others := by
    rw [selectCode, calls]
    exact ⟨_, rfl⟩
  obtain ⟨others, selected⟩ := selected
  exact ⟨_, rfl, others, selected, rfl⟩

theorem relayed_in_range (entry : Nat × Ir.Operand) (member : entry ∈ pendingOf relayArguments) :
    relay.InRange (relay.readOff State.entered) entry.2 := by
  have only : ∀ entry ∈ pendingOf relayArguments, entry.2 ∈ relayed := by decide
  rcases mem_append.mp (only entry member) with plain | element
  · rcases mem_cons.mp plain with parameter | constant
    · rw [parameter]
      trivial
    · obtain ⟨number, _, same⟩ := mem_map.mp constant
      rw [← same]
      trivial
  · rw [mem_singleton.mp element]
    exact ⟨trivial, rfl, by decide⟩

theorem relay_clear :
    relay.Clear (State.entered.get .fp) (outgoing (State.entered.get .sp) 9) := by
  have area : outgoing (State.entered.get .sp) 9 = ⟨65488, 16⟩ := rfl
  have frame : relay.frame (State.entered.get .fp) = ⟨65504, 48⟩ := rfl
  refine ⟨?_, fun name play => absurd play (relay_private name)⟩
  rw [area, frame]
  intro address one two
  unfold Span.Has at one two
  dsimp only at one two
  bv_omega

theorem relay_agrees : ∃ ahead rest atCall inner inside ahead' final,
    relay.At relayArguments [relayCall, .ret (some (.var "r" .int))] ahead ∧
    Config.Reaches World.flat ahead (.running ahead State.entered [])
      (.running (.bl "nine" :: rest) atCall []) ∧
    16 ∣ (atCall.get .sp).toNat ∧
    relay.Passes (relay.readOff State.entered) (pendingOf relayArguments) atCall ∧
    relay.Untouched State.entered atCall ∧
    nine.At [] nine.function.code inner ∧ homeWord inside (.slot 16) = 0 ∧
    Config.Reaches World.flat ahead (.running ahead State.entered [])
      (.running ahead' final [⟨"nine", atCall⟩]) ∧
    relay.Resumes (relay.readOff State.entered) relayCall State.entered atCall final := by
  obtain ⟨ahead, here⟩ := relay_at
  have off : relay.OffStack (State.entered.get .fp) (relay.frame (State.entered.get .fp)) :=
    ⟨by decide, inside_refl _, fun name play => absurd play (relay_private name),
      fun name play => absurd play (relay_private name)⟩
  have positions : (pendingOf relayArguments).map Prod.fst = List.range 9 := by decide
  obtain ⟨callee, rest, atCall, named, reached, aligned, passes, untouched, enters, resumes⟩ :=
    call_agrees (show relay.platform = World.flat.toPlatform from rfl) rfl here
      (positions ▸ .refl _) (by decide) off relay_clear (by decide)
      (relay.depicts_readOff State.entered) relayed_in_range ahead []
  cases named
  obtain ⟨assembled, done⟩ :
      ∃ assembled, (Function.ofIr nine.globals nine.function).result = .ok assembled := ⟨_, rfl⟩
  obtain ⟨inner, inside, _, there, receives⟩ := enters nine assembled 0 rfl done (by decide)
  obtain ⟨ahead', final, goes, _, resumed⟩ := resumes fun _ _ => rfl
  have ninth : ((8, 0) : Nat × Word) ∈
      relay.valuesOf (relay.readOff State.entered) (pendingOf relayArguments) := by decide
  exact ⟨ahead, rest, atCall, inner, inside, ahead', final, here, reached, aligned, passes,
    untouched, there, receives.homes _ ninth _ _ nine_lodged rfl, goes, resumed⟩

/-- A leaf whose parameter is a temporary that occurs often. -/
def warmed : Placement where
  platform := World.flat.toPlatform
  globals := []
  function :=
    { name := "warmed"
      parameters := [.temp "t0" .int]
      code := [.binary .add (.var "s" .int) (.temp "t0" .int) (.temp "t0" .int),
        .ret (some (.temp "t0" .int))] }
  layout := ⟨⟨[(.var "s", .reg (.x 20)), (.temp "t0", .reg (.x 19))]⟩, [.x 19, .x 20], 0, true, []⟩
  laid := rfl

/-- The parameter of this leaf lives in a register of the pool, and nothing brings the argument
there: the function is entered with one in the first register and finds zero. -/
theorem warmed_loses_argument :
    (∃ assembled, (Function.ofIr warmed.globals warmed.function).result = .ok assembled ∧
      assembled.body.take warmed.layout.prologue.length = warmed.layout.prologue) ∧
    warmed.layout.homes.get? (.temp "t0") = some (.reg (.x 19)) ∧
    Convention.register? 0 = some (.x 0) ∧ State.entered.get (.x 0) = 1 ∧
    homeWord (execAll warmed.platform warmed.layout.prologue State.entered) (.reg (.x 19)) = 0 :=
  ⟨⟨_, rfl, rfl⟩, rfl, rfl, rfl, rfl⟩

end Placement

end ArmBackend.Machine
