import ArmBackend.Proofs.Ir.Matching
import ArmBackend.Proofs.Machine.Arithmetic
import ArmBackend.Proofs.Machine.Control

/-!
# Selected code does what its instruction does

The code of an instruction leads from a state that holds the values before it to one that
holds those behind it, and control goes where it goes in three-address code.  Only the
destination changes, and what no place lives in.
-/

namespace ArmBackend.Ir

/-- The step goes on behind the instruction, or to the target of a jump. -/
def Function.Steps (function : Function) (setting : Setting) (owns : String → Bool) (instr : Instr)
    (after : List Instr) (state : State) (point : Point) : Prop :=
  (∃ next events, instr.effect setting owns state = .next next events ∧ point = ⟨after, next⟩) ∨
  ∃ label rest, instr.effect setting owns state = .jump label ∧
    function.target? label = some rest ∧ point = ⟨rest, state⟩

theorem Function.steps_of_move {setting : Setting} {function : Function} {instr : Instr}
    {after : List Instr} {state : State} {events : List Event} {point : Point}
    (moves : function.move setting ⟨instr :: after, state⟩ = .go events point) :
    function.Steps setting function.owns instr after state point := by
  unfold move at moves
  dsimp only at moves
  split at moves
  · next next others effect =>
      cases moves
      exact .inl ⟨next, events, effect, rfl⟩
  · next label effect =>
      split at moves
      · next target found =>
          cases moves
          exact .inr ⟨label, target, effect, found, rfl⟩
      · cases moves
  all_goals cases moves

end ArmBackend.Ir

namespace ArmBackend.Machine

open List

open ArmBackend.Frame

variable {step : Emit Unit} {assembled : Function} {code : List Instr} {name : String}

namespace Emit

theorem run_ok (done : step.run = .ok code) :
    ∃ emitted, step Reg.scratch = .ok emitted ∧ code = emitted.code := by
  unfold run at done
  cases emits : step Reg.scratch with
  | error cause =>
    rw [emits] at done
    cases done
  | ok emitted =>
    rw [emits] at done
    cases done
    exact ⟨emitted, rfl, rfl⟩

theorem run_required_ok {α : Type} {part : Option α} {next : α → Emit Unit}
    (done : (required part >>= next).run = .ok code) :
    ∃ value, part = some value ∧ (next value).run = .ok code := by
  obtain ⟨emitted, whole, rfl⟩ := run_ok done
  obtain ⟨first, last, head, tail, rfl⟩ := bind_ok whole
  cases part with
  | none => cases head
  | some value =>
    cases head
    refine ⟨value, rfl, ?_⟩
    rw [run, tail]
    rfl

/-- What a step leads to is what its code leads to. -/
theorem Leads.of_run {platform : Platform} {before : State} {post : Unit → List Reg → State → Prop}
    (leads : step.Leads platform Reg.scratch before post) (done : step.run = .ok code) :
    ∃ free, post () free (execAll platform code before) := by
  obtain ⟨emitted, emits, rfl⟩ := run_ok done
  exact ⟨_, leads emitted emits⟩

end Emit

/-- What is selected for a branch with a condition, and when it is taken. -/
theorem select_branch {site : Site} {pending : Pending} {instr : Ir.Instr}
    (conditional : instr.opcode ∈ [.jumpIfTrue, .jumpIfFalse])
    (selected : (site.select pending instr).run = .ok code) :
    ∃ name condition loaded branch, ∃ taken : Word → Bool, instr.label = some name ∧
      instr.src1 = some condition ∧ site.load condition Reg.scratch = .ok loaded ∧
      code = loaded.code ++ [branch] ∧
      (∀ machine, branch.control machine =
        if taken (machine.get loaded.value) then .jump (Symbol.ofLabel name) else .next) ∧
      (∀ platform machine, branch.exec platform machine = machine) ∧
      ∀ setting owns state, instr.effect setting owns state =
        if taken (instr.first setting owns state) then .jump instr.label else .next state [] := by
  cases opcode : instr.opcode with
  | jumpIfTrue | jumpIfFalse =>
    simp only [Site.select, opcode] at selected
    obtain ⟨name, named, done⟩ := Emit.run_required_ok selected
    obtain ⟨condition, given, done⟩ := Emit.run_required_ok done
    obtain ⟨emitted, whole, rfl⟩ := Emit.run_ok done
    obtain ⟨loaded, last, loads, final, rfl⟩ := Emit.bind_ok whole
    cases final
    refine ⟨name, condition, loaded, _, fun word => (word == 0) == (instr.opcode == .jumpIfFalse),
      named, given, loads, rfl, fun _ => ?_, fun _ _ => rfl, fun _ _ _ => ?_⟩
    · simp [Instr.control, opcode]
    · simp [Ir.Instr.effect, opcode]
  | _ => simp [opcode] at conditional

/-- What is selected for an instruction that does nothing. -/
theorem select_quiet {site : Site} {pending : Pending} {instr : Ir.Instr}
    (quiet : instr.opcode ∈ [.enter, .allocArray, .nop, .label, .arg, .push, .pop])
    (selected : (site.select pending instr).run = .ok code) :
    (∀ line ∈ code, line.isStraight = true) ∧
      ∀ platform machine, execAll platform code machine = machine := by
  cases opcode : instr.opcode with
  | enter | allocArray | nop | push | pop =>
    simp only [Site.select, opcode] at selected
    cases selected
    exact ⟨by simp [Instr.isStraight], fun _ _ => rfl⟩
  | label | arg =>
    simp only [Site.select, opcode] at selected
    obtain ⟨_, _, made⟩ := Emit.run_required_ok selected
    cases made
    exact ⟨by simp [Instr.isStraight], fun _ _ => rfl⟩
  | _ => simp [opcode] at quiet

namespace Placement

variable {placed : Placement} {machine : State} {state : Ir.State} {instr : Ir.Instr}

/-! ## Values -/

theorem result_of_move (moves : instr.opcode ∈
      [.loadImm, .load, .move, .store, .loadAddr, .arrayLoad, .arrayStore])
    {value : Ir.Operand} (source : instr.src1 = some value) (state : Ir.State) :
    instr.result placed.setting placed.frames state = placed.value state value := by
  have plain : instr.opcode.isBinary = false ∧ ∀ floats isFloat word,
      instr.opcode.onOne floats isFloat word = word := by
    revert moves
    cases instr.opcode <;> simp [Ir.Opcode.isBinary, Ir.Opcode.isComparison, Ir.Opcode.onOne]
  simp [Ir.Instr.result, plain.1, plain.2, Ir.Instr.first, source, Placement.value]

section

variable (holds : placed.Holds machine state)
  (reads : ∀ operand ∈ instr.inputs, placed.Reads (machine.get .fp) state operand)
  (pending : Pending)
include holds reads

/-- An element takes its value from a register. -/
theorem leads_arrayStore (opcode : instr.opcode = .arrayStore) :
    (placed.site.select pending instr).Leads placed.platform Reg.scratch machine fun _ _ after =>
      ∃ dest, instr.dest = some dest ∧
        placed.Delivers state dest (instr.result placed.setting placed.frames state) machine
          after := by
  have scratch := suffix_refl Reg.scratch
  simp only [Site.select, opcode]
  refine .bind (.required fun dest written => .bind (.required fun value source => ?_))
  have reads_dest := reads dest (by simp [Ir.Instr.inputs, opcode, written])
  refine .bind ((leads_load scratch holds (reads value (Ir.Instr.mem_inputs_of_src1 source))).mono
    fun register free middle post => ?_)
  obtain ⟨fewer, confined, same, spared⟩ := post
  have spares := placed.spares_working scratch
  have fp := confined.get_eq _ spares.fp
  cases dest with
  | element array index type =>
    have reads' : placed.Reads (middle.get .fp) state (.element array index type) :=
      fp.symm ▸ reads_dest
    refine .bind ((leads_elementOf (fewer.trans scratch) (holds.keep spares confined)
      reads').mono fun element free' after post => .code ⟨_, written, ?_⟩)
    obtain ⟨_, confined', address⟩ := post
    have kept : after.get register = placed.value state value :=
      (confined'.get_eq _ spared).trans same
    have other : register ≠ .address := by
      rintro rfl
      exact spared (mem_cons_self ..)
    have puts := element.store_puts placed.platform after other
    rw [address, fp, kept] at puts
    refine ⟨_, rfl, puts.load_eq.trans (result_of_move (by simp [opcode]) source state).symm, ?_⟩
    have before := confined.trans (confined'.widen (working_subset fewer))
    refine (before.mono (working_subset_temporaries scratch) (nil_subset _)).trans
      (puts.confined.widen ?_)
    decide
  | _ => exact .bind .fail

theorem leads_select (gives : instr.opcode.givesValue = true) :
    (placed.site.select pending instr).Leads placed.platform Reg.scratch machine fun _ _ after =>
      ∃ dest, instr.dest = some dest ∧
        placed.Delivers state dest (instr.result placed.setting placed.frames state) machine
          after := by
  have sources : ∀ operand ∈ instr.sources, placed.Reads (machine.get .fp) state operand :=
    fun operand member => reads operand (mem_append_left _ member)
  cases opcode : instr.opcode with
  | loadImm | load | move | store | loadAddr | arrayLoad =>
    simp only [Site.select, opcode]
    refine .bind (.required fun dest written => .bind (.required fun value source => ?_))
    refine (leads_assign (suffix_refl _) holds (reads value (Ir.Instr.mem_inputs_of_src1 source))).mono
      fun _ _ after delivers => ⟨dest, written, ?_⟩
    rwa [result_of_move (by simp [opcode]) source state]
  | arrayStore => exact leads_arrayStore holds reads pending opcode
  | add | sub | mul | div | mod | and | or | eq | ne | lt | le | gt | ge =>
    have binary : instr.opcode.isBinary = true := by rw [opcode]; rfl
    simp only [Site.select, opcode]
    exact leads_binary binary holds sources
  | neg | not | intToFloat | floatToInt =>
    have single : instr.opcode ∈ [.neg, .not, .intToFloat, .floatToInt] := by simp [opcode]
    simp only [Site.select, opcode]
    exact leads_unary single holds sources
  | _ =>
    rw [opcode] at gives
    cases gives

end

/-! ## Steps -/

variable (placed)

/-- The storage that an instruction writes. -/
def written (fp : Word) (state : Ir.State) (instr : Ir.Instr) : List Spot :=
  if instr.opcode.givesValue then (instr.dest.bind (placed.spot? fp state)).toList else []

/-- The run comes to the code of a point and has the values of its state.  Of what places live
in, only some spots have changed. -/
def ComesTo (world : World) (body ahead : List Instr) (machine : State) (calls : List Call)
    (changed : List Spot) (point : Ir.Point) : Prop :=
  ∃ before ahead' machine',
    Config.Reaches world body (.running ahead machine calls) (.running ahead' machine' calls) ∧
    placed.At before point.rest ahead' ∧ placed.Holds machine' point.state ∧
    Confined (changed.flatMap Spot.registers ++ Reg.temporaries) (changed.flatMap Spot.spans)
      machine machine'

variable {placed} {world : World} {before after : List Ir.Instr} {ahead : List Instr}
  {calls : List Call}

theorem Separate.addressed (separate : placed.Separate) (listed : instr ∈ placed.function.code)
    (plain : instr.opcode ≠ .allocArray) {operand : Ir.Operand}
    (member : operand ∈ instr.operands) (fp : Word) (state : Ir.State) :
    ∀ place ∈ operand.places, placed.Addressed fp state place := by
  intro place inside base length found
  obtain ⟨reserving, reserves, _⟩ := Layout.reserves_of_array placed.laid found
  refine absurd (.inr ⟨instr, listed, ?_, fun both => plain both.1⟩)
    (separate.locals place reserving reserves)
  exact mem_flatMap.mpr ⟨operand, member, inside⟩

theorem At.mem (here : placed.At before (instr :: after) ahead) :
    instr ∈ placed.function.code := by
  rw [here.1]
  exact mem_append_right _ (mem_cons_self ..)

theorem Separate.reads (separate : placed.Separate) (listed : instr ∈ placed.function.code)
    (plain : instr.opcode ≠ .allocArray)
    (range : ∀ operand ∈ instr.operands, placed.InRange state operand) (fp : Word) :
    ∀ operand ∈ instr.operands, placed.Reads fp state operand :=
  fun operand member => ⟨knows_of_mem listed member, range operand member,
    separate.addressed listed plain member fp state⟩

theorem goto_eq (done : (Function.ofIr placed.globals placed.function).result = .ok assembled)
    (apart : Ir.SpelledApart placed.function.code) {target : List Ir.Instr}
    (found : Ir.afterLabel name placed.function.code = some target) (machine : State)
    (calls : List Call) :
    ∃ before ahead, placed.At before target ahead ∧
      Config.goto assembled.body (Symbol.ofLabel name) machine calls =
        .running ahead machine calls := by
  have branch := At.branch done (Symbol.ofLabel name)
  have listed := Ir.mem_marksOf_of_afterLabel found
  rw [Ir.afterSpelling_eq (fun other member same => apart other member name listed same)
    found] at branch
  obtain ⟨before, ahead, there, behind⟩ := branch
  exact ⟨before, ahead, there, by rw [Config.goto, behind]⟩

section

variable (here : placed.At before (instr :: after) ahead) (holds : placed.Holds machine state)
include here holds

theorem comesTo_quiet (quiet : instr.opcode ∈ [.enter, .allocArray, .nop, .label])
    (body : List Instr) (changed : List Spot) :
    placed.ComesTo world body ahead machine calls changed ⟨after, state⟩ := by
  obtain ⟨code, ahead', selected, rfl, there⟩ := here.next
  obtain ⟨straight, still⟩ := select_quiet ((by decide : [_, _, _, _] ⊆ _) quiet) selected
  refine ⟨_, ahead', machine, ⟨code.length, ?_⟩, there, holds, .refl ..⟩
  rw [Config.run_straight _ _ straight, still]

theorem comesTo_give (on : placed.platform = world.toPlatform) (separate : placed.Separate)
    {stack : Span} (divided : placed.Divided (machine.get .fp) stack)
    (gives : instr.opcode.givesValue = true)
    (reads : ∀ operand ∈ instr.operands, placed.Reads (machine.get .fp) state operand)
    {next : Ir.State} {events : List Ir.Event}
    (effect : instr.effect placed.setting placed.frames state = .next next events)
    (body : List Instr) :
    placed.ComesTo world body ahead machine calls (placed.written (machine.get .fp) state instr)
      ⟨after, next⟩ := by
  obtain ⟨code, ahead', selected, rfl, there⟩ := here.next
  have inner := (placed.site.isInner_select (pendingOf before) gives).of_run selected
  obtain ⟨_, dest, written, spot, stored, read, confined⟩ :=
    (leads_select holds (fun operand member => reads operand (instr.inputs_subset member))
      (pendingOf before) gives).of_run selected
  have listed : dest ∈ instr.operands := by simp [Ir.Instr.operands, written]
  rw [on] at read confined
  refine ⟨_, ahead', _, Config.reaches_inner inner ahead' machine calls, there, ?_, ?_⟩
  · have kept := holds.assign divided separate (reads dest listed).knows (reads dest listed).range
      stored confined
    rw [read] at kept
    rw [Ir.Instr.effect_of_givesValue gives, Ir.Instr.give, written] at effect
    cases effect
    exact kept
  · simpa [Placement.written, gives, written, stored] using confined

variable (done : (Function.ofIr placed.globals placed.function).result = .ok assembled)
  (apart : Ir.SpelledApart placed.function.code)
include done apart

/-- A branch without a condition. -/
theorem comesTo_jump (opcode : instr.opcode = .jump) {rest : List Ir.Instr}
    (goes : placed.function.target? instr.label = some rest) (changed : List Spot) :
    placed.ComesTo world assembled.body ahead machine calls changed ⟨rest, state⟩ := by
  obtain ⟨code, ahead', selected, rfl, _⟩ := here.next
  simp only [Site.select, opcode] at selected
  obtain ⟨name, named, made⟩ := Emit.run_required_ok selected
  cases made
  rw [named] at goes
  obtain ⟨_, target, there, goto⟩ := goto_eq done apart goes machine calls
  exact ⟨_, target, machine, goto ▸ Config.reaches_step _, there, holds, .refl ..⟩

/-- A branch that is taken depending on a value. -/
theorem comesTo_branch (on : placed.platform = world.toPlatform)
    (reads : ∀ operand ∈ instr.operands, placed.Reads (machine.get .fp) state operand)
    (conditional : instr.opcode ∈ [.jumpIfTrue, .jumpIfFalse]) {point : Ir.Point}
    (step : placed.function.Steps placed.setting placed.frames instr after state point)
    (changed : List Spot) :
    placed.ComesTo world assembled.body ahead machine calls changed point := by
  obtain ⟨selected, ahead', run, rfl, behind⟩ := here.next
  obtain ⟨name, condition, loaded, branch, taken, named, given, loads, rfl, control, still, effects⟩ :=
    select_branch conditional run
  have scratch := suffix_refl Reg.scratch
  have spares := placed.spares_working scratch
  have inner := placed.site.isInner_load condition _ _ loads
  have reads_condition := reads condition (by simp [Ir.Instr.operands, Ir.Instr.sources, given])
  obtain ⟨_, confined, value, _⟩ := leads_load scratch holds reads_condition loaded loads
  have first : instr.first placed.setting placed.frames state = placed.value state condition := by
    simp [Ir.Instr.first, given, Placement.value]
  have holds' := holds.keep spares confined
  have confined' : Confined (changed.flatMap Spot.registers ++ Reg.temporaries)
      (changed.flatMap Spot.spans) machine (execAll placed.platform loaded.code machine) :=
    confined.mono (List.Subset.trans (working_subset_temporaries scratch)
      (subset_append_right _ _)) (nil_subset _)
  have effect := effects placed.setting placed.frames state
  rw [first, ← value] at effect
  rw [on] at effect holds' confined'
  have loading : Config.Reaches world assembled.body
      (.running (loaded.code ++ (branch :: ahead')) machine calls) _ :=
    Config.reaches_inner inner _ machine calls
  have branching : Config.Reaches world assembled.body (.running (branch :: ahead')
      (execAll world.toPlatform loaded.code machine) calls) _ := Config.reaches_step _
  rw [Config.step, control, still] at branching
  rw [append_assoc]
  unfold Ir.Function.Steps at step
  rw [effect, named] at step
  split at step
  · next yes =>
      rcases step with ⟨next, events, ⟨⟩, _⟩ | ⟨label, rest, ⟨⟩, goes, rfl⟩
      obtain ⟨_, target, there, goto⟩ := goto_eq done apart goes
        (execAll world.toPlatform loaded.code machine) calls
      simp only [yes, if_true, goto] at branching
      exact ⟨_, target, _, loading.trans branching, there, holds', confined'⟩
  · next no =>
      rcases step with ⟨next, events, ⟨⟩, rfl⟩ | ⟨label, rest, ⟨⟩, _⟩
      simp only [no] at branching
      exact ⟨_, ahead', _, loading.trans branching, behind, holds', confined'⟩

end

/-- Selected code does, instruction by instruction, what three-address code does: from any state
that holds the values, the machine comes to the next instruction with the values that are there,
and has changed no more than the destination and what no place lives in. -/
theorem select_simulates (on : placed.platform = world.toPlatform) {assembled : Function}
    (done : (Function.ofIr placed.globals placed.function).result = .ok assembled)
    (separate : placed.Separate) (apart : Ir.SpelledApart placed.function.code)
    (kind : instr.opcode ∉ [.arg, .call, .print, .println, .ret, .exit, .push, .pop])
    (here : placed.At before (instr :: after) ahead) {stack : Span}
    (divided : placed.Divided (machine.get .fp) stack) (holds : placed.Holds machine state)
    (range : ∀ operand ∈ instr.operands, placed.InRange state operand)
    {events : List Ir.Event} {point : Ir.Point}
    (moves : placed.function.move placed.setting ⟨instr :: after, state⟩ = .go events point)
    (calls : List Call) :
    placed.ComesTo world assembled.body ahead machine calls
      (placed.written (machine.get .fp) state instr) point := by
  have reads (plain : instr.opcode ≠ .allocArray) :
      ∀ operand ∈ instr.operands, placed.Reads (machine.get .fp) state operand :=
    separate.reads here.mem plain range _
  have step := Ir.Function.steps_of_move moves
  rw [← separate.frames_eq] at step
  by_cases gives : instr.opcode.givesValue = true
  · have plain : instr.opcode ≠ .allocArray := by
      intro opcode
      rw [opcode] at gives
      cases gives
    rcases step with ⟨next, events, effect, rfl⟩ | ⟨label, rest, effect, _⟩
    · exact comesTo_give here holds on separate divided gives (reads plain) effect _
    · rw [Ir.Instr.effect_of_givesValue gives, Ir.Instr.give] at effect
      split at effect <;> cases effect
  cases opcode : instr.opcode with
  | enter | allocArray | nop | label =>
    simp only [Ir.Function.Steps, Ir.Instr.effect, opcode] at step
    rcases step with ⟨next, events, ⟨⟩, rfl⟩ | ⟨label, rest, ⟨⟩, _⟩
    exact comesTo_quiet here holds (by simp [opcode]) _ _
  | jump =>
    simp only [Ir.Function.Steps, Ir.Instr.effect, opcode] at step
    rcases step with ⟨next, events, ⟨⟩, _⟩ | ⟨label, rest, ⟨⟩, goes, rfl⟩
    exact comesTo_jump here holds done apart opcode goes _
  | jumpIfTrue | jumpIfFalse =>
    exact comesTo_branch here holds done apart on (reads (by simp [opcode])) (by simp [opcode]) step _
  | arg | call | print | println | ret | exit | push | pop => simp [opcode] at kind
  | _ => exact absurd (by rw [opcode]; rfl) gives

end Placement

/-- A world with all symbols at one address, in which all floats are alike and calls do nothing. -/
def World.flat : World where
  symbol _ := 4096
  binary _ _ _ := 0
  negate _ := 0
  truncate _ := 0
  multiplySubtract _ _ _ := 0
  ofInt _ := 0
  toInt _ := 0
  compare _ _ := .equal
  callee _ _ state := state

/-- The frame pointer is far up, and the first argument is one. -/
def State.entered : State where
  general number := if number = 29 then 65536 else if number = 0 then 1 else 0
  stack := 65504
  floats _ := 0
  flags := ⟨false, false, false, false⟩
  memory _ := 0

namespace Placement

/-- The sum of an element and a constant, which goes to a global. -/
def totalled : Ir.Instr :=
  .binary .add (.global "total" .int) (.element "row" (.param "i" .int) .int)
    (.immediate (.int 5) .int)

/-- A leaf with an array in its frame. -/
def shelf : Placement where
  platform := World.flat.toPlatform
  globals := [⟨"total", .int, none⟩]
  function :=
    { name := "shelf"
      parameters := [.param "i" .int]
      code := [.allocArray (.var "row" .int) 3, totalled, .exit "shelf"] }
  layout := ⟨⟨[(.var "row", .array (-24) 3), (.param "i", .reg (.x 0))]⟩, [], 24, true, []⟩
  laid := rfl

theorem shelf_scalar (used : shelf.ScalarGlobal name) : name = "total" := by
  have defined : ∀ global ∈ shelf.globals, global.name = "total" := by decide
  have named : ∀ instr ∈ shelf.function.code, ∀ operand ∈ instr.operands,
      ∀ name ∈ operand.globals, name = "total" := by decide
  rcases used with ⟨global, listed, rfl, _⟩ | ⟨instr, listed, operand, member, inside⟩
  · exact defined global listed
  · exact named instr listed operand member name inside

theorem shelf_array : ¬ shelf.ArrayGlobal name := by
  have defined : ∀ global ∈ shelf.globals, ¬ global.count.isSome := by decide
  have named : ∀ instr ∈ shelf.function.code, ∀ operand ∈ instr.operands,
      ∀ name ∈ operand.arrays, shelf.frames name = true := by decide
  rintro (⟨global, listed, _, counted⟩ | ⟨outside, instr, listed, operand, member, inside⟩)
  · exact defined global listed counted
  · rw [named instr listed operand member name inside] at outside
    cases outside

theorem shelf_separate : shelf.Separate := by
  have reserved : ∀ instr ∈ shelf.function.code, instr.opcode = .allocArray →
      instr.defined = some (.var "row") := by decide
  have mentioned : ∀ instr ∈ shelf.function.code,
      .var "row" ∈ instr.operands.flatMap Ir.Operand.places →
        instr.opcode = .allocArray ∧ instr.defined = some (.var "row") := by decide
  have passed : ∀ parameter ∈ shelf.function.parameters,
      parameter.location? ≠ some (.var "row") := by decide
  constructor
  · rintro place instr ⟨listed, opcode, defined⟩ used
    rw [reserved instr listed opcode] at defined
    cases defined
    rcases used with ⟨parameter, listed', named⟩ | ⟨other, listed', named, scalar⟩
    · exact passed parameter listed' named
    · exact scalar (mentioned other listed' named)
  · exact fun name _ array => shelf_array array

theorem shelf_divided :
    shelf.Divided (State.entered.get .fp) (shelf.frame (State.entered.get .fp)) := by
  have only (name : String) (play : shelf.InPlay (.global name)) : name = "total" :=
    play.elim shelf_scalar fun array => absurd array shelf_array
  have region : shelf.region "total" = ⟨4096, 8⟩ := rfl
  have frame : shelf.frame (State.entered.get .fp) = ⟨65504, 48⟩ := rfl
  refine ⟨⟨by decide, inside_refl _, fun name play => ?_, fun name play => ?_⟩,
    fun one two play play' differ => absurd ((only one play).trans (only two play').symm) differ⟩
  · rw [only name play, region]
    decide
  · rw [only name play, region, frame]
    intro address one two
    unfold Span.Has at one two
    dsimp only at one two
    bv_omega

theorem shelf_simulates :
    ∃ assembled ahead, (Function.ofIr shelf.globals shelf.function).result = .ok assembled ∧
      shelf.At [.allocArray (.var "row" .int) 3] [totalled, .exit "shelf"] ahead ∧
      shelf.ComesTo World.flat assembled.body ahead State.entered [] [.word 4096]
        ⟨[.exit "shelf"], (shelf.readOff State.entered).set (.global "total") 5⟩ := by
  have done : ∃ assembled, (Function.ofIr shelf.globals shelf.function).result = .ok assembled :=
    ⟨_, rfl⟩
  obtain ⟨assembled, done⟩ := done
  obtain ⟨ahead, _, here⟩ := body_of_ofIr done
  obtain ⟨_, ahead', _, _, there⟩ := here.next
  refine ⟨assembled, ahead', done, there, ?_⟩
  have spelled : Ir.SpelledApart shelf.function.code := by
    intro one listed
    cases listed
  have range : ∀ operand ∈ totalled.operands,
      shelf.InRange (shelf.readOff State.entered) operand := by
    have listed : totalled.operands = [.global "total" .int,
      .element "row" (.param "i" .int) .int, .immediate (.int 5) .int] := rfl
    rw [listed, List.forall_mem_cons, List.forall_mem_cons, List.forall_mem_singleton]
    exact ⟨Nat.one_pos, ⟨trivial, rfl, by decide⟩, trivial⟩
  exact select_simulates rfl done shelf_separate spelled (by decide) there shelf_divided
    (shelf.holds_readOff State.entered) range rfl []

/-- A function with two labels that the assembly spells alike. -/
def crossed : Placement where
  platform := World.flat.toPlatform
  globals := []
  function :=
    { name := "crossed"
      parameters := []
      code := [.jump ".x", .mark "Lx", .ret (some (.immediate (.int 1) .int)), .mark ".x",
        .ret (some (.immediate (.int 2) .int))] }
  layout := ⟨⟨[]⟩, [], 0, true, []⟩
  laid := rfl

/-- Where the jump of the function goes in three-address code. -/
def crossedPoint : Ir.Point :=
  ⟨[.ret (some (.immediate (.int 2) .int))], crossed.readOff State.entered⟩

/-- What is ahead at the jump of the function. -/
def crossedCode : List Instr :=
  [.b ".Lx", .label ".Lx", .movConst .result 1, .mov .sp .fp, .ldpPost .fp .lr .sp 16, .ret,
    .label ".Lx", .movConst .result 2, .mov .sp .fp, .ldpPost .fp .lr .sp 16, .ret]

/-- The jump of this function goes to the wrong one of two labels that are spelled alike, and the
machine never comes where the other one leads. -/
theorem crossed_goes_astray :
    (Function.ofIr crossed.globals crossed.function).result =
      .ok ⟨"crossed", 0, true, crossed.layout.prologue ++ crossedCode⟩ ∧
    crossed.At [] crossed.function.code crossedCode ∧
    crossed.function.move crossed.setting ⟨crossed.function.code, crossed.readOff State.entered⟩ =
      .go [] crossedPoint ∧
    ¬ crossed.ComesTo World.flat (crossed.layout.prologue ++ crossedCode) crossedCode
      State.entered [] [] crossedPoint := by
  refine ⟨rfl, ⟨rfl, _, rfl, rfl⟩, rfl, ?_⟩
  rintro ⟨before, ahead, machine, ⟨count, reached⟩, ⟨whole, code, selected, rfl⟩, _⟩
  have same : before = crossed.function.code.take 4 :=
    List.append_cancel_right (whole.symm.trans (List.take_append_drop 4 _).symm)
  subst same
  have rest : code ++ crossed.ending = crossedCode.drop 7 := by
    cases selected
    rfl
  rw [rest] at reached
  obtain ⟨final, returns⟩ : ∃ final,
      Config.run World.flat (crossed.layout.prologue ++ crossedCode) 5
        (.running crossedCode State.entered []) = .returned final [] := ⟨_, rfl⟩
  rcases Nat.lt_or_ge count 5 with early | late
  · interval_cases count <;> cases reached
  · rw [Config.run_eq_of_le _ _ (by rw [returns]; rfl) late, returns] at reached
    cases reached

end Placement

end ArmBackend.Machine
