import ArmBackend.Proofs.Machine.Upkeep

/-!
# The conduct of a function towards its caller

From its entry on, through any branches and calls, a function keeps its frame set up
wherever an instruction begins.  So the pointers are in place outside of calls, and every
return gives back to the caller what belongs to it, with the value of the return in the
register for it.
-/

namespace ArmBackend.Machine

open List

open ArmBackend.Frame

variable {config : Config} {assembled : Function} {code ahead' : List Instr} {steps : Nat}

namespace Config

variable {world : World} {body : List Instr} {kind : Config → Prop}

/-- The next so many configurations of the run are of the kind. -/
def Keeps (world : World) (body : List Instr) (kind : Config → Prop) (steps : Nat)
    (config : Config) : Prop :=
  ∀ count ≤ steps, kind (run world body count config)

theorem Keeps.fewer {fewer : Nat} (le : fewer ≤ steps)
    (keeps : Keeps world body kind steps config) : Keeps world body kind fewer config :=
  fun count small => keeps count (Nat.le_trans small le)

theorem keeps_of_ended (still : config.isRunning = false) (holds : kind config) (steps : Nat) :
    Keeps world body kind steps config := by
  intro count _
  rwa [run_of_not_isRunning world body still]

/-- A step, and what follows it. -/
theorem keeps_step (holds : kind config)
    (later : ∀ fewer < steps, Keeps world body kind fewer (step world body config)) :
    Keeps world body kind steps config := by
  intro count le
  cases count with
  | zero => exact holds
  | succ count => exact later count le count (Nat.le_refl _)

/-- Straight code, and what follows it. -/
theorem keeps_straight {rest : List Instr} (straight : ∀ instr ∈ code, instr.isStraight = true)
    {state : State} {calls : List Call} (amid : ∀ front back, code = front ++ back → back ≠ [] →
      kind (.running (back ++ rest) (execAll world.toPlatform front state) calls))
    (later : Keeps world body kind steps
      (.running rest (execAll world.toPlatform code state) calls)) :
    Keeps world body kind steps (.running (code ++ rest) state calls) := by
  intro count le
  rcases Nat.lt_or_ge count code.length with early | late
  · have split := take_append_drop count code
    have length : (code.take count).length = count := length_take_of_le (Nat.le_of_lt early)
    have rest_ne : code.drop count ≠ [] := fun empty => by
      have := drop_eq_nil_iff.mp empty
      omega
    have begins : ∀ instr ∈ code.take count, instr.isStraight = true :=
      fun instr member => straight instr (mem_of_mem_take member)
    have there := run_straight world body begins (code.drop count ++ rest) state calls
    rw [← append_assoc, split, length] at there
    rw [there]
    exact amid _ _ split.symm rest_ne
  · obtain ⟨more, rfl⟩ := Nat.exists_eq_add_of_le late
    rw [run_add, run_straight world body straight]
    exact later more (by omega)

end Config

namespace Placement

variable {placed : Placement} {before after rest : List Ir.Instr} {instr : Ir.Instr}
  {ahead : List Instr}

/-! ## Positions in the code -/

theorem At.unique {rest' : List Ir.Instr} (one : placed.At before rest ahead)
    (two : placed.At before rest' ahead') : rest = rest' ∧ ahead = ahead' := by
  obtain ⟨whole, code, selected, rfl⟩ := one
  obtain ⟨whole', code', selected', rfl⟩ := two
  have same : rest = rest' := append_cancel_left (whole.symm.trans whole')
  subst same
  exact ⟨rfl, by rw [Except.ok.inj (selected.symm.trans selected')]⟩

theorem At.length_le {between : List Ir.Instr} (one : placed.At before (between ++ rest) ahead)
    (two : placed.At (before ++ between) rest ahead') : ahead'.length ≤ ahead.length := by
  induction between generalizing before ahead with
  | nil =>
    rw [append_nil] at two
    rw [(one.unique two).2]
  | cons instr between ih =>
    obtain ⟨code, later, _, rfl, there⟩ := one.next
    have shorter := ih there (by simpa using two)
    rw [length_append]
    omega

variable (placed) in
/-- Control stands in front of the later part of the code of an instruction. -/
structure Amid (before : List Ir.Instr) (instr : Ir.Instr) (after : List Ir.Instr)
    (front back ahead : List Instr) : Prop where
  here : placed.At before (instr :: after) (front ++ (back ++ ahead))
  next : placed.At (before ++ [instr]) after ahead
  nonempty : back ≠ []

namespace Amid

variable {front back : List Instr} (amid : placed.Amid before instr after front back ahead)

include amid

theorem ending_lt : placed.ending.length < (back ++ ahead).length := by
  obtain ⟨_, code, _, rfl⟩ := amid.next
  have := length_pos_iff.mpr amid.nonempty
  rw [length_append, length_append]
  omega

theorem length_le {whole : List Instr} (start : placed.At [] placed.function.code whole) :
    (back ++ ahead).length ≤ whole.length := by
  have here : placed.At ([] ++ before) (instr :: after) (front ++ (back ++ ahead)) := amid.here
  have shorter := At.length_le (amid.here.1 ▸ start) here
  rw [length_append] at shorter
  omega

variable {before' after' : List Ir.Instr} {instr' : Ir.Instr} {front' back' ahead' : List Instr}
  (other : placed.Amid before' instr' after' front' back' ahead')
  (same : back ++ ahead = back' ++ ahead')
include other same

/-- Earlier instructions have more ahead of them. -/
theorem not_before : ¬ before.length < before'.length := by
  intro earlier
  have whole : before ++ instr :: after = before' ++ instr' :: after' :=
    amid.here.1.symm.trans other.here.1
  obtain ⟨between, split, behind⟩ : ∃ between, before' = (before ++ [instr]) ++ between ∧
      after = between ++ instr' :: after' := by
    rw [append_cons] at whole
    rcases append_eq_append_iff.mp whole with ⟨part, one, two⟩ | ⟨part, one, two⟩
    · exact ⟨part, one, two⟩
    · have lengths := congrArg List.length one
      rw [length_append, length_append, length_singleton] at lengths
      have empty : part = [] := eq_nil_of_length_eq_zero (by omega)
      subst empty
      rw [append_nil] at one
      exact ⟨[], by rw [← one, append_nil], two.symm⟩
  subst split behind
  have shorter := At.length_le amid.next other.here
  have longer := length_pos_iff.mpr amid.nonempty
  have lengths := congrArg List.length same
  simp only [length_append] at shorter lengths
  omega

/-- The code ahead tells where control stands. -/
theorem unique : instr = instr' ∧ back = back' := by
  have lengths : before.length = before'.length := by
    have one := amid.not_before other same
    have two := other.not_before amid same.symm
    omega
  obtain ⟨rfl, rests⟩ := append_inj (amid.here.1.symm.trans other.here.1) lengths
  cases rests
  refine ⟨rfl, ?_⟩
  rw [(amid.next.unique other.next).2] at same
  exact append_cancel_right same

end Amid

/-! ## Fair runs -/

variable (placed)

/-- The operands that an instruction reads or writes; a call reads the arguments that wait. -/
def reading (before : List Ir.Instr) (instr : Ir.Instr) : List Ir.Operand :=
  instr.operands ++ if instr.opcode = .call then (pendingOf before).map Prod.snd else []

/-- The function is entered where its stack is, all its accesses are in range, and those that it
calls keep to the convention. -/
structure Fair (world : World) (body : List Instr) (entry : State) (depth : Nat) : Prop where
  on : placed.platform = world.toPlatform
  seated : placed.Seated entry depth
  range : ∀ before instr after ahead machine calls, placed.At before (instr :: after) ahead →
    Config.Reaches world body (start body entry) (.running ahead machine calls) →
      ∀ operand ∈ reading before instr, placed.InRange (placed.readOff machine) operand
  callees : ∀ before instr after front callee back ahead atCall calls,
    placed.Amid before instr after front (.bl callee :: back) ahead →
    Config.Reaches world body (start body entry)
      (.running (.bl callee :: (back ++ ahead)) atCall calls) →
        placed.Honours (room before instr) atCall (world.callee calls callee atCall)

/-- All arguments that the function passes stand where 32 bits are enough for their words. -/
def InReach : Prop :=
  ∀ instr ∈ placed.function.code, instr.opcode = .arg → ∀ argument ∈ argument? instr,
    argument.1 < Convention.reach

/-- The frame pointer is below the saved pair and the stack pointer below the frame. -/
structure Upright (entry machine : State) : Prop where
  fp : machine.get .fp = entry.get .sp - BitVec.ofNat 64 Layout.recordSize
  sp : machine.get .sp = machine.get .fp - BitVec.ofNat 64 placed.layout.size

/-- The instruction leaves the function. -/
def Leaving (instr : Ir.Instr) : Prop :=
  instr.opcode = .ret ∨ instr.opcode = .exit

/-- Control stands between prologue and epilogue and in no call. -/
def Amidst (rest : List Instr) : Prop :=
  ∃ before instr after front back ahead, placed.Amid before instr after front back ahead ∧
    rest = back ++ ahead ∧ instr.opcode ≠ .call ∧
      (Leaving instr → placed.layout.epilogue <:+ back)

/-- The function has left as it should: the caller has its registers back, and of the memory above
its stack pointer only that of globals and of arguments may have changed.  Control came from an
instruction that leaves the function, or from its end, and if that returns a value, it is in the
register for it. -/
structure Left (world : World) (body : List Instr) (entry final : State) (calls : List Call) :
    Prop where
  registers : ∀ register ∈ .fp :: .lr :: .sp :: Reg.pool, final.get register = entry.get register
  memory : ∀ address, (entry.get .sp).toNat ≤ address.toNat → ¬ placed.InGlobals address →
    ¬ (placed.arrivals (entry.get .sp)).Has address → final.memory address = entry.memory address
  result : ∃ before rest ahead machine, placed.At before rest ahead ∧
    Config.Reaches world body (start body entry) (.running ahead machine calls) ∧
    Config.Reaches world body (.running ahead machine calls) (.returned final calls) ∧
    (∀ instr after, rest = instr :: after → Leaving instr) ∧
    ∀ instr after value, rest = instr :: after → instr.opcode = .ret → instr.src1 = some value →
      ∀ state, placed.Depicts machine state → placed.InRange state value →
        final.get .result = placed.value state value

/-- What is to hold of every configuration of a run. -/
def Proper (world : World) (body : List Instr) (entry : State) : Config → Prop
  | .running rest machine _ => placed.Amidst rest → placed.Upright entry machine
  | .returned final calls => placed.Left world body entry final calls
  | _ => True

/-- The next so many configurations of the run are proper. -/
abbrev Behaves (world : World) (body : List Instr) (entry : State) (steps : Nat) : Config → Prop :=
  Config.Keeps world body (placed.Proper world body entry) steps

variable {placed} {world : World} {body : List Instr} {entry machine : State} {depth steps : Nat}
  {calls : List Call}

theorem Steady.upright (steady : placed.Steady entry machine) : placed.Upright entry machine :=
  ⟨steady.fp, steady.sp⟩

theorem Steady.upright_amid (steady : placed.Steady entry machine) (level : Level code)
    {first last : List Instr} (split : code = first ++ last) (platform : Platform) :
    placed.Upright entry (execAll platform first machine) := by
  rw [split, level_append] at level
  have fp : (execAll platform first machine).get .fp = machine.get .fp :=
    level.1.get_eq (by decide) platform machine
  have sp : (execAll platform first machine).get .sp = machine.get .sp :=
    level.1.get_eq (by decide) platform machine
  exact ⟨fp.trans steady.fp, by rw [sp, fp, steady.sp]⟩

theorem proper_of_amid {front back : List Instr}
    (amid : placed.Amid before instr after front back ahead)
    (upright : instr.opcode ≠ .call → (Leaving instr → placed.layout.epilogue <:+ back) →
      placed.Upright entry machine) :
    placed.Proper world body entry (.running (back ++ ahead) machine calls) := by
  rintro ⟨_, _, _, _, _, _, other, same, kind, early⟩
  obtain ⟨rfl, rfl⟩ := amid.unique other same
  exact upright kind early

theorem proper_of_ending {rest : List Instr} (short : rest.length ≤ placed.ending.length) :
    placed.Proper world body entry (.running rest machine calls) := by
  rintro ⟨_, _, _, _, _, _, other, same, _⟩
  have long := other.ending_lt
  rw [← same] at long
  omega

/-! ## One instruction -/

variable (placed) in
/-- Wherever the machine stands at these instructions with the frame set up, so many steps from there
are proper. -/
def Goes (world : World) (body : List Instr) (entry : State) (steps : Nat)
    (before rest : List Ir.Instr) : Prop :=
  ∀ ahead machine calls, placed.At before rest ahead → placed.Steady entry machine →
    Config.Reaches world body (start body entry) (.running ahead machine calls) →
      placed.Behaves world body entry steps (.running ahead machine calls)

theorem Goes.fewer {fewer : Nat} (goes : placed.Goes world body entry steps before rest)
    (le : fewer ≤ steps) : placed.Goes world body entry fewer before rest :=
  fun ahead machine calls here steady reached => (goes ahead machine calls here steady reached).fewer le

theorem keeps_code (front tail : List Instr)
    (here : placed.At before (instr :: after) (front ++ (code ++ (tail ++ ahead))))
    (next : placed.At (before ++ [instr]) after ahead)
    (straight : ∀ instr ∈ code, instr.isStraight = true)
    (upright : ∀ first last, code = first ++ last → last ≠ [] → instr.opcode ≠ .call →
      (Leaving instr → placed.layout.epilogue <:+ last ++ tail) →
        placed.Upright entry (execAll world.toPlatform first machine))
    (later : placed.Behaves world body entry steps
      (.running (tail ++ ahead) (execAll world.toPlatform code machine) calls)) :
    placed.Behaves world body entry steps (.running (code ++ (tail ++ ahead)) machine calls) := by
  refine Config.keeps_straight straight (fun first last split nonempty => ?_) later
  rw [← append_assoc]
  have inside : placed.Amid before instr after (front ++ first) (last ++ tail) ahead :=
    ⟨by simpa [split] using here, next, by simp [nonempty]⟩
  exact proper_of_amid inside (upright first last split nonempty)

/-- Code that readies a value for the instruction behind it, and keeps the frame. -/
structure Prepares (world : World) (machine : State) (loading : List Instr) : Prop where
  inner : Inner loading
  level : Level loading
  confined : Confined (Reg.arguments ++ Reg.temporaries) [] machine
    (execAll world.toPlatform loading machine)

theorem Prepares.nil : Prepares world machine [] :=
  ⟨inner_nil, level_nil, .refl ..⟩

/-- Control goes to a label. -/
theorem keeps_goto (done : (Function.ofIr placed.globals placed.function).result = .ok assembled)
    (goes : ∀ before rest, placed.Goes world assembled.body entry steps before rest)
    (steady : placed.Steady entry machine) {target : String}
    (reached : Config.Reaches world assembled.body (start assembled.body entry)
      (Config.goto assembled.body target machine calls)) :
    placed.Behaves world assembled.body entry steps
      (Config.goto assembled.body target machine calls) := by
  have branch := At.branch done target
  unfold Config.goto at reached ⊢
  cases found : Ir.afterSpelling target placed.function.code with
  | none =>
    rw [found] at branch
    rw [branch]
    exact Config.keeps_of_ended rfl trivial steps
  | some rest =>
    rw [found] at branch
    obtain ⟨before, ahead, there, behind⟩ := branch
    rw [behind] at reached ⊢
    exact goes before rest ahead machine calls there steady reached

theorem keeps_epilogue (on : placed.platform = world.toPlatform)
    (steady : placed.Steady entry machine) {tail : List Instr}
    (amid : ∀ front back, placed.layout.epilogue = front ++ back → back ≠ [] →
      placed.Proper world body entry
        (.running (back ++ tail) (execAll world.toPlatform front machine) calls))
    (left : ∀ final, Restores entry machine final →
      Config.Reaches world body (.running (placed.layout.epilogue ++ tail) machine calls)
        (.returned final calls) → placed.Left world body entry final calls) :
    placed.Behaves world body entry steps
      (.running (placed.layout.epilogue ++ tail) machine calls) := by
  rw [placed.epilogue_eq_closing] at amid
  rw [placed.epilogue_eq_closing, append_assoc] at left ⊢
  refine Config.keeps_straight placed.inner_closing.straight (fun front back split nonempty => ?_)
    (Config.keeps_step (amid placed.closing [.ret] rfl (by simp)) fun fewer _ => ?_)
  · rw [← append_assoc]
    exact amid front (back ++ [.ret]) (by rw [split, append_assoc]) (by simp)
  · refine Config.keeps_of_ended rfl (left _ (steady.restores (by rw [on])) ?_) fewer
    exact (Config.reaches_inner placed.inner_closing _ machine calls).trans (Config.reaches_step _)

theorem left_of_restores (steady : placed.Steady entry machine) {ahead : List Instr} {first : State}
    (here : placed.At before rest ahead)
    (reached : Config.Reaches world body (start body entry) (.running ahead first calls))
    (leaving : ∀ instr after, rest = instr :: after → Leaving instr)
    {final : State} (restores : Restores entry machine final)
    (returned : Config.Reaches world body (.running ahead first calls) (.returned final calls))
    (result : ∀ instr after value, rest = instr :: after → instr.opcode = .ret →
      instr.src1 = some value → ∀ state, placed.Depicts first state → placed.InRange state value →
        machine.get .result = placed.value state value) :
    placed.Left world body entry final calls := by
  refine ⟨restores.kept, fun address high own outside => ?_, before, rest, ahead, first, here,
    reached, returned, leaving, fun instr after value split opcode source state depicts range => ?_⟩
  · rw [restores.memory]
    exact steady.above address high own outside
  · rw [restores.others _ (by decide)]
    exact result instr after value split opcode source state depicts range

section

variable (fair : placed.Fair world body entry depth)
  (here : placed.At before (instr :: after) ahead) (steady : placed.Steady entry machine)
  (reached : Config.Reaches world body (start body entry) (.running ahead machine calls))

include fair here reached

theorem Fair.reads {operand : Ir.Operand} (member : operand ∈ instr.operands) :
    placed.Reads (machine.get .fp) (placed.readOff machine) operand :=
  (placed.depicts_readOff machine).reads here.mem member
    (fair.range _ _ _ _ _ _ here reached operand (mem_append_left _ member))

theorem Fair.prepares {operand : Ir.Operand} (member : operand ∈ instr.operands)
    {loaded : Emitted Unit} (loads : placed.site.loadInto .result operand Reg.scratch = .ok loaded) :
    Prepares world machine loaded.code := by
  have scratch := suffix_refl Reg.scratch
  obtain ⟨_, brings⟩ := leads_loadInto scratch (placed.holds_readOff machine) (by decide)
    (fair.reads here reached member) loaded loads
  obtain ⟨_, level, _⟩ := placed.moves_plain.emits_loadInto (by decide) operand _ _ (by decide) loads
  rw [fair.on] at brings
  refine ⟨placed.site.isInner_loadInto _ _ _ _ loads, level, brings.confined.widen ?_⟩
  exact cons_subset.mpr ⟨by decide,
    List.Subset.trans (working_subset_temporaries scratch) (subset_append_right _ _)⟩

include steady

/-- Code that prepares, and one instruction behind it. -/
theorem goes_last {loading : List Instr} {last : Instr} (split : ahead = loading ++ last :: ahead')
    (there : placed.At (before ++ [instr]) after ahead') (prepares : Prepares world machine loading)
    (later : ∀ machine', machine' = execAll world.toPlatform loading machine →
      placed.Steady entry machine' →
      Config.Reaches world body (start body entry) (.running (last :: ahead') machine' calls) →
      ∀ fewer < steps, placed.Behaves world body entry fewer
        (Config.step world body (.running (last :: ahead') machine' calls))) :
    placed.Behaves world body entry steps (.running ahead machine calls) := by
  subst split
  have steady' := steady.work fair.seated prepares.confined
  have amid : placed.Amid before instr after loading [last] ahead' := ⟨here, there, by simp⟩
  exact keeps_code [] [last] here there prepares.inner.straight
    (fun _ _ split _ _ _ => steady.upright_amid prepares.level split _)
    (Config.keeps_step (proper_of_amid amid fun _ _ => steady'.upright) (later _ rfl steady'
      (reached.trans (Config.reaches_inner prepares.inner _ machine calls))))

variable (goes : placed.Goes world body entry steps (before ++ [instr]) after)
include goes

omit fair in
/-- An instruction whose code only goes on. -/
theorem goes_straight (kind : instr.opcode ∉ [.call, .ret, .exit])
    (straight : ∀ code, (placed.site.select (pendingOf before) instr).run = .ok code →
      (∀ instr ∈ code, instr.isStraight = true) ∧
        placed.Steady entry (execAll world.toPlatform code machine)) :
    placed.Behaves world body entry steps (.running ahead machine calls) := by
  obtain ⟨code, ahead', selected, rfl, there⟩ := here.next
  obtain ⟨onward, steady'⟩ := straight code selected
  have level := placed.level_select kind selected
  exact keeps_code [] [] here there onward (fun _ _ split _ _ _ => steady.upright_amid level split _)
    (goes ahead' _ calls there steady' (reached.trans ⟨_, Config.run_straight world body onward ..⟩))

theorem goes_give (gives : instr.opcode.givesValue = true) :
    placed.Behaves world body entry steps (.running ahead machine calls) := by
  have kind : instr.opcode ∉ [.call, .ret, .exit] := by
    intro member
    simp only [mem_cons, not_mem_nil, or_false] at member
    rcases member with opcode | opcode | opcode <;> rw [opcode] at gives <;> cases gives
  refine goes_straight here steady reached goes kind fun code selected => ⟨?_, ?_⟩
  · exact ((placed.site.isInner_select (pendingOf before) gives).of_run selected).straight
  · have reads : ∀ operand ∈ instr.operands,
        placed.Reads (machine.get .fp) (placed.readOff machine) operand :=
      fun operand member => fair.reads here reached member
    obtain ⟨_, dest, written, spot, stored, _, confined⟩ :=
      (leads_select (placed.holds_readOff machine)
        (fun operand member => reads operand (instr.inputs_subset member)) (pendingOf before)
        gives).of_run selected
    have listed : dest ∈ instr.operands := by simp [Ir.Instr.operands, written]
    rw [fair.on] at confined
    exact steady.write fair.seated (reads dest listed).knows (reads dest listed).range stored confined

omit fair in
/-- An instruction that does nothing. -/
theorem goes_quiet
    (quiet : instr.opcode ∈ [.enter, .allocArray, .nop, .label, .arg, .push, .pop]) :
    placed.Behaves world body entry steps (.running ahead machine calls) := by
  have kind : instr.opcode ∉ [.call, .ret, .exit] := by
    revert quiet
    cases instr.opcode <;> simp
  refine goes_straight here steady reached goes kind fun code selected => ?_
  obtain ⟨straight, still⟩ := select_quiet quiet selected
  exact ⟨straight, (still ..).symm ▸ steady⟩

/-- An instruction that prints a value. -/
theorem goes_print (prints : instr.opcode ∈ [.print, .println]) :
    placed.Behaves world body entry steps (.running ahead machine calls) := by
  obtain ⟨selected, ahead', run, rfl, there⟩ := here.next
  cases opcode : instr.opcode with
  | print | println =>
    simp only [Site.select, opcode] at run
    obtain ⟨value, given, run⟩ := Emit.run_required_ok run
    obtain ⟨emitted, whole, rfl⟩ := Emit.run_ok run
    obtain ⟨loaded, last, loads, final, rfl⟩ := Emit.bind_ok whole
    cases final
    have prepares := fair.prepares here reached
      (by simp [Ir.Instr.operands, Ir.Instr.sources, given]) loads
    refine goes_last fair here steady reached (append_assoc ..) there prepares
      fun _ _ steady' called fewer less => ?_
    have honours := fair.callees _ _ _ _ _ _ _ _ _ ⟨by simpa using here, there, by simp⟩ called
    have none : room before instr = 0 := if_neg (by simp [opcode])
    rw [none] at honours
    exact (goes.fewer (Nat.le_of_lt less)) ahead' _ _ there (steady'.returned fair.seated honours)
      (called.trans (Config.reaches_step _))
  | _ => simp [opcode] at prints

/-- A call. -/
theorem goes_call (near : placed.InReach) (opcode : instr.opcode = .call) :
    placed.Behaves world body entry steps (.running ahead machine calls) := by
  have seated := fair.seated
  have area : room before instr =
      Convention.outgoingArea (Site.argumentCount (Site.inOrder (pendingOf before))) := if_pos opcode
  have fits := seated.calls _ _ _ here.1
  rw [area] at fits
  have low := seated.low
  have top := (entry.get .sp).isLt
  have off := seated.offStack
  have clear := seated.clear fits
  rw [← steady.fp] at off clear
  rw [← steady.sp] at clear
  have reads := (placed.depicts_readOff machine).reads_pending here fun argument member => by
    refine fair.range _ _ _ _ _ _ here reached _ ?_
    unfold reading
    rw [if_pos opcode]
    exact mem_append_right _ (mem_map_of_mem member)
  have few : Site.argumentCount (Site.inOrder (pendingOf before)) ≤ Convention.reach := by
    refine Site.argumentCount_le fun entry member => ?_
    obtain ⟨source, listed, passes, given⟩ :=
      arg_of_mem_pendingOf ((Site.inOrder_perm _).mem_iff.mp member)
    exact near source (here.1 ▸ mem_append_left _ listed) passes entry given
  obtain ⟨callee, front, behind, ahead', _, rfl, inner, inner', there, gathers, _, resumes⟩ :=
    call_parts opcode here off rfl few clear (placed.holds_readOff machine) reads
  rw [fair.on] at gathers resumes
  have amid : placed.Amid before instr after front (.bl callee :: behind) ahead' :=
    ⟨here, there, by simp⟩
  have atCall := reached.trans (Config.reaches_inner inner _ machine calls)
  have honours := fair.callees _ _ _ _ _ _ _ _ _ amid atCall
  rw [area] at honours
  have back := atCall.trans (Config.reaches_step _)
  have dest : ∀ dest, instr.dest = some dest →
      placed.Knows dest ∧ placed.InRange (placed.readOff machine) dest := by
    intro dest named
    have reads := fair.reads here reached (show dest ∈ instr.operands by
      simp [Ir.Instr.operands, named])
    exact ⟨reads.knows, reads.range⟩
  have fp : (world.callee calls callee (execAll world.toPlatform front machine)).get .fp =
      machine.get .fp := by
    rw [honours.registers .fp (by decide)]
    exact gathers.confined.get_eq _ (by decide)
  have steady' := (steady.called seated fits gathers.sp gathers.confined honours).resumed seated fp
    (resumes _ honours.registers) dest
  -- Within a call nothing is said about the pointers.
  refine keeps_code [] (.bl callee :: behind) here there inner.straight
    (fun _ _ _ _ other => absurd opcode other)
    (Config.keeps_step (proper_of_amid amid fun other => absurd opcode other) fun fewer less => ?_)
  refine keeps_code (front ++ [.bl callee]) [] (by simpa using here) there inner'.straight
    (fun _ _ _ _ other => absurd opcode other) ?_
  exact (goes.fewer (Nat.le_of_lt less)) ahead' _ _ there steady'
    (back.trans (Config.reaches_inner inner' ahead' _ _))

omit steady goes in
theorem leave_parts (leaving : Leaving instr) : ∃ loading ahead',
    ahead = loading ++ (placed.layout.epilogue ++ ahead') ∧
    placed.At (before ++ [instr]) after ahead' ∧ Prepares world machine loading ∧
    ∀ value, instr.opcode = .ret → instr.src1 = some value → ∀ state,
      placed.Depicts machine state → placed.InRange state value →
        (execAll world.toPlatform loading machine).get .result = placed.value state value := by
  obtain ⟨code, ahead', selected, split, there⟩ := here.next
  rcases leaving with opcode | opcode
  · simp only [Site.select, opcode] at selected
    obtain ⟨emitted, whole, rfl⟩ := Emit.run_ok selected
    obtain ⟨loaded, last, loads, final, rfl⟩ := Emit.bind_ok whole
    cases final
    refine ⟨loaded.code, ahead', by rw [split, append_assoc]; rfl, there, ?_⟩
    cases source : instr.src1 with
    | none =>
      rw [source] at loads
      cases loads
      exact ⟨.nil, by simp⟩
    | some operand =>
      rw [source] at loads
      have listed : operand ∈ instr.operands := by
        simp [Ir.Instr.operands, Ir.Instr.sources, source]
      refine ⟨fair.prepares here reached listed loads, fun value _ same state depicts range => ?_⟩
      cases same
      obtain ⟨_, brings⟩ := leads_loadInto (suffix_refl _) depicts.holds
        (by decide) (depicts.reads here.mem listed range) loaded loads
      rw [fair.on] at brings
      exact brings.get_eq
  · simp only [Site.select, opcode] at selected
    cases selected
    exact ⟨[], ahead', split, there, .nil, by simp [opcode]⟩

omit goes in
/-- An instruction that leaves the function. -/
theorem goes_leave (leaving : Leaving instr) :
    placed.Behaves world body entry steps (.running ahead machine calls) := by
  obtain ⟨loading, ahead', rfl, there, prepares, result⟩ := leave_parts fair here reached leaving
  have steady' := steady.work fair.seated prepares.confined
  have loads : Config.Reaches world body
      (.running (loading ++ (placed.layout.epilogue ++ ahead')) machine calls) _ :=
    Config.reaches_inner prepares.inner (placed.layout.epilogue ++ ahead') machine calls
  refine keeps_code [] placed.layout.epilogue here there prepares.inner.straight
    (fun _ _ split _ _ _ => steady.upright_amid prepares.level split _)
    (keeps_epilogue fair.on steady' (fun front back split nonempty => ?_)
      fun final restores returned => ?_)
  · have amid : placed.Amid before instr after (loading ++ front) back ahead' :=
      ⟨by simpa [split] using here, there, nonempty⟩
    refine proper_of_amid amid fun _ early => ?_
    -- In front of the whole epilogue nothing of it has been done.
    have shorter := (early leaving).length_le
    rw [split, length_append] at shorter
    have none : front = [] := eq_nil_of_length_eq_zero (by omega)
    rw [none, execAll_nil]
    exact steady'.upright
  · refine left_of_restores steady' here reached ?_ restores (loads.trans returned) ?_
    · rintro other behind ⟨⟩
      exact leaving
    · rintro other behind value ⟨⟩ opcode source state depicts range
      exact result value opcode source state depicts range

end

section

variable {assembled : Function}
  (done : (Function.ofIr placed.globals placed.function).result = .ok assembled)
  (fair : placed.Fair world assembled.body entry depth)
  (here : placed.At before (instr :: after) ahead) (steady : placed.Steady entry machine)
include done fair here steady

variable
  (reached : Config.Reaches world assembled.body (start assembled.body entry) (.running ahead machine calls))
  (goes : placed.Goes world assembled.body entry steps (before ++ [instr]) after)
  (jumps : ∀ fewer < steps, ∀ before rest, placed.Goes world assembled.body entry fewer before rest)
include reached goes jumps

/-- A branch. -/
theorem goes_branch {loading : List Instr} {branch : Instr}
    (split : ahead = loading ++ (branch :: ahead'))
    (there : placed.At (before ++ [instr]) after ahead') (prepares : Prepares world machine loading)
    (control : ∀ state, branch.control state = .next ∧ branch.exec world.toPlatform state = state ∨
      ∃ target, branch.control state = .jump target) :
    placed.Behaves world assembled.body entry steps (.running ahead machine calls) := by
  refine goes_last fair here steady reached split there prepares
    fun machine' _ steady' loaded fewer less => ?_
  have reached' := loaded.trans (Config.reaches_step _)
  rw [Config.step] at reached' ⊢
  rcases control machine' with ⟨onward, same⟩ | ⟨target, jump⟩
  · rw [onward] at reached' ⊢
    dsimp only at reached' ⊢
    rw [same] at reached' ⊢
    exact (goes.fewer (Nat.le_of_lt less)) ahead' _ calls there steady' reached'
  · rw [jump] at reached' ⊢
    exact keeps_goto done (jumps fewer less) steady' reached'

/-- A branch that is taken depending on a value. -/
theorem goes_branchIf (conditional : instr.opcode ∈ [.jumpIfTrue, .jumpIfFalse]) :
    placed.Behaves world assembled.body entry steps (.running ahead machine calls) := by
  obtain ⟨selected, ahead', run, split, there⟩ := here.next
  obtain ⟨name, condition, loaded, branch, taken, _, given, loads, rfl, control, still, _⟩ :=
    select_branch conditional run
  have scratch := suffix_refl Reg.scratch
  have plain : ∀ reg ∈ Reg.scratch, reg.IsPlain := by decide
  have listed : condition ∈ instr.operands := by
    simp [Ir.Instr.operands, Ir.Instr.sources, given]
  obtain ⟨_, confined, _⟩ := leads_load scratch (placed.holds_readOff machine)
    (fair.reads here reached listed) loaded loads
  obtain ⟨_, level, _⟩ := placed.moves_plain.emits_load condition _ _ plain loads
  rw [fair.on] at confined
  rw [append_assoc] at split
  refine goes_branch done fair here steady reached goes jumps split there
    ⟨placed.site.isInner_load condition _ _ loads, level, confined.widen (List.Subset.trans
      (working_subset_temporaries scratch) (subset_append_right _ _))⟩ fun state => ?_
  rw [control]
  split
  · exact .inr ⟨_, rfl⟩
  · exact .inl ⟨rfl, still ..⟩

end

/-! ## Whole runs -/

theorem Entered.steady (entered : placed.Entered entry machine)
    (seated : placed.Seated entry depth) : placed.Steady entry machine := by
  refine ⟨entered.toFramed, fun address high _ outside => ?_⟩
  refine entered.confined.memory_eq address fun span member has => outside ?_
  rw [mem_singleton.mp member, entered.fp] at has
  exact seated.arrivals_of_frame has high

section

variable {assembled : Function}
  (done : (Function.ofIr placed.globals placed.function).result = .ok assembled)
  (fair : placed.Fair world assembled.body entry depth)
include done fair

theorem goes_instr (near : placed.InReach)
    (goes : placed.Goes world assembled.body entry steps (before ++ [instr]) after)
    (jumps : ∀ fewer < steps, ∀ before rest,
      placed.Goes world assembled.body entry fewer before rest) :
    placed.Goes world assembled.body entry steps before (instr :: after) := by
  intro ahead machine calls here steady reached
  cases opcode : instr.opcode with
  | enter | allocArray | nop | label | arg | push | pop =>
    exact goes_quiet here steady reached goes (by simp [opcode])
  | jump =>
    obtain ⟨code, ahead', selected, split, there⟩ := here.next
    simp only [Site.select, opcode] at selected
    obtain ⟨name, _, made⟩ := Emit.run_required_ok selected
    cases made
    exact goes_branch done fair here steady reached goes jumps split there .nil
      fun _ => .inr ⟨_, rfl⟩
  | jumpIfTrue | jumpIfFalse =>
    exact goes_branchIf done fair here steady reached goes jumps (by simp [opcode])
  | print | println => exact goes_print fair here steady reached goes (by simp [opcode])
  | call => exact goes_call fair here steady reached goes near opcode
  | ret => exact goes_leave fair here steady reached (.inl opcode)
  | exit => exact goes_leave fair here steady reached (.inr opcode)
  | _ => exact goes_give fair here steady reached goes (by rw [opcode]; rfl)

omit done in
theorem goes_end : placed.Goes world assembled.body entry steps before [] := by
  intro ahead machine calls here steady reached
  have same : ahead = placed.ending := by
    obtain ⟨_, code, selected, rfl⟩ := here
    cases selected
    rfl
  subst same
  have short (rest : List Instr) (suffix : rest <:+ placed.ending) (state : State) :
      placed.Proper world assembled.body entry (.running rest state calls) :=
    proper_of_ending suffix.length_le
  by_cases leaves : leavesAtEnd placed.function = true
  · have none : placed.ending = [] := if_pos leaves
    rw [none] at short ⊢
    exact Config.keeps_step (short [] (suffix_refl _) machine)
      fun fewer _ => Config.keeps_of_ended rfl trivial fewer
  · have epilogue : placed.ending = placed.layout.epilogue ++ [] := by
      rw [append_nil]
      exact if_neg leaves
    rw [epilogue] at here reached short ⊢
    refine keeps_epilogue fair.on steady (fun front back split _ => ?_)
      fun final restores returned => ?_
    · rw [append_nil] at short ⊢
      exact short back ⟨front, split.symm⟩ _
    · refine left_of_restores steady here reached ?_ restores returned ?_
      · rintro _ _ ⟨⟩
      · rintro _ _ _ ⟨⟩

theorem goes (near : placed.InReach) (steps : Nat) (before rest : List Ir.Instr) :
    placed.Goes world assembled.body entry steps before rest := by
  induction steps using Nat.strongRecOn generalizing before rest with
  | _ steps jumps =>
    induction rest generalizing before with
    | nil => exact goes_end fair
    | cons instr after ih => exact goes_instr done fair near (ih _) jumps

theorem proper_run (near : placed.InReach) (count : Nat) :
    placed.Proper world assembled.body entry
      (Config.run world assembled.body count (start assembled.body entry)) := by
  obtain ⟨ahead, body, here⟩ := body_of_ofIr done
  have inner := inner_prologue placed.layout
  have enters := entered entry fair.seated.offStack.frame_small
    (congrArg (fun platform => execAll platform placed.layout.prologue entry) fair.on)
  have reached : Config.Reaches world assembled.body (start assembled.body entry)
      (.running ahead (execAll world.toPlatform placed.layout.prologue entry) []) := by
    unfold start
    nth_rewrite 2 [body]
    exact Config.reaches_inner inner ahead entry []
  have keeps := goes done fair near count [] placed.function.code ahead _ [] here
    (enters.steady fair.seated) reached
  refine (?_ : Config.Keeps world assembled.body _ count _) count (Nat.le_refl _)
  unfold start
  nth_rewrite 3 [body]
  refine Config.keeps_straight inner.straight (fun front back _ nonempty => ?_) keeps
  -- No instruction has so much ahead of it.
  rintro ⟨_, _, _, _, _, _, amid, same, _⟩
  have few := amid.length_le here
  rw [← same, length_append] at few
  have some := length_pos_iff.mpr nonempty
  omega

end

theorem inRange_of_plain {operand : Ir.Operand} (arrays : operand.arrays = [])
    (globals : operand.globals = []) (state : Ir.State) : placed.InRange state operand := by
  cases operand with
  | element array index type => cases arrays
  | global name type => cases globals
  | _ => trivial

/-- The last element of a long array. -/
def stashed : Ir.Operand :=
  .element "row" (.immediate (.int 999) .int) .int

/-- A function whose frame is too large for an immediate, and which prints and returns its argument. -/
def stash : Placement where
  platform := World.flat.toPlatform
  globals := []
  function :=
    { name := "stash"
      parameters := [.param "p" .int]
      code := [.allocArray (.var "row" .int) 1000, .arrayStore stashed (.param "p" .int),
        .print true stashed, .ret (some stashed)] }
  layout := ⟨⟨[(.param "p", .reg (.x 19)), (.var "row", .array (-8000) 1000)]⟩, [.x 19], 8000, false,
    [(.x 0, .reg (.x 19))]⟩
  laid := rfl

/-- The code of the function up to the call that prints. -/
def stashFront : List Instr :=
  stash.layout.prologue ++ [.stur (.x 19) .fp (-8), .ldur .result .fp (-8)]

/-- The code behind that call, up to the return. -/
def stashBack : List Instr :=
  .ldur .result .fp (-8) :: stash.closing

theorem stash_returns (body : List Instr) : ∃ final calls,
    Config.Reaches World.flat body
      (.running (stashFront ++ .bl "lark_println_int" :: (stashBack ++ [.ret])) State.entered [])
      (.returned final calls) := by
  have front : Inner stashFront := inner_append.mpr
    ⟨inner_prologue stash.layout, by simp [Instr.isBoundary, inner_nil]⟩
  have back : Inner stashBack := inner_cons.mpr ⟨rfl, stash.inner_closing⟩
  exact ⟨_, _, ((Config.reaches_inner front _ _ _).trans (Config.reaches_step _)).trans
    ((Config.reaches_inner back [.ret] _ _).trans (Config.reaches_step _))⟩

theorem stash_private (name : String) : ¬ stash.InPlay (.global name) :=
  not_inPlay_global rfl (by decide) name

theorem stash_fair (body : List Instr) : stash.Fair World.flat body State.entered 8032 := by
  have kind : ∀ instr ∈ stash.function.code, instr.opcode ≠ .call := by decide
  have few : ∀ instr ∈ stash.function.code, ∀ operand ∈ instr.operands,
      operand = stashed ∨ operand.arrays = [] ∧ operand.globals = [] := by decide
  refine ⟨rfl, ⟨by decide, fun before instr after whole => ?_, by decide, by decide,
    fun name play => absurd play (stash_private name),
    fun name play => absurd play (stash_private name)⟩, ?_, fun _ _ _ _ _ _ _ _ _ _ _ =>
      ⟨fun _ _ => rfl, fun _ _ _ => rfl⟩⟩
  · have listed : instr ∈ stash.function.code := by simp [whole]
    rw [room, if_neg (kind instr listed)]
    decide
  · intro before instr after ahead machine calls here _ operand member
    rw [reading, if_neg (kind instr here.mem), append_nil] at member
    rcases few instr here.mem operand member with rfl | ⟨arrays, globals⟩
    · have index : stash.value (stash.readOff machine) (.immediate (.int 999) .int) = 999#64 := rfl
      have length : stash.length "row" = 1000 := rfl
      refine ⟨trivial, rfl, ?_⟩
      rw [index, length]
      decide
    · exact inRange_of_plain arrays globals _

def scatteredArguments : List Ir.Instr :=
  [.arg (.immediate (.int 7) .int) 1008, .arg (.immediate (.int 9) .int) (2 ^ 32 + 8)]

/-- A function that passes two arguments on the stack, the second one out of reach. -/
def scattered : Placement where
  platform := World.flat.toPlatform
  globals := []
  function :=
    { name := "scattered"
      code := scatteredArguments ++ [.call "f" none, .ret none] }
  layout := ⟨⟨[]⟩, [], 0, false, []⟩
  laid := rfl

/-- Of the area only what is left of it in 32 bits is reserved. -/
def scatteredCall : List Instr :=
  [.subImm .sp .sp ⟨16, false⟩, .movConst (.x 9) 7, .str (.x 9) .sp 8000, .movConst (.x 9) 9,
    .str (.x 9) .sp 0, .bl "f", .addImm .sp .sp ⟨16, false⟩]

theorem scattered_ordered :
    Site.inOrder (pendingOf scatteredArguments) = pendingOf scatteredArguments :=
  mergeSort_of_pairwise (by decide)

theorem scattered_selected :
    (selectCode scattered.site "scattered" [] scattered.function.code).result =
      .ok (scatteredCall ++ scattered.layout.epilogue) := by
  have chosen : (scattered.site.select (pendingOf scatteredArguments) (.call "f" none)).run =
      .ok scatteredCall := by
    simp only [Site.select, Ir.Instr.call, Site.call, scattered_ordered]
    rfl
  have tail : (selectCode scattered.site "scattered" (pendingOf scatteredArguments)
      [.call "f" none, .ret none]).result = .ok (scatteredCall ++ scattered.layout.epilogue) := by
    rw [selectCode, chosen]
    rfl
  exact congrArg (·.map ([] ++ ·)) (congrArg (·.map ([] ++ ·)) tail)

theorem scattered_private (name : String) : ¬ scattered.InPlay (.global name) :=
  not_inPlay_global rfl (by decide) name

theorem scattered_fair (body : List Instr) : scattered.Fair World.flat body State.entered 32 := by
  have plain : ∀ instr ∈ scattered.function.code, ∀ operand ∈ instr.operands,
      operand.arrays = [] ∧ operand.globals = [] := by decide
  refine ⟨rfl, ⟨by decide, ?_, by decide, by decide,
    fun name play => absurd play (scattered_private name),
    fun name play => absurd play (scattered_private name)⟩, ?_, fun _ _ _ _ _ _ _ _ _ _ _ =>
      ⟨fun _ _ => rfl, fun _ _ _ => rfl⟩⟩
  · intro before instr after whole
    have area : room scatteredArguments (.call "f" none) ≤ 16 := by
      rw [room, scattered_ordered]
      decide
    rcases before with _ | ⟨_, _ | ⟨_, _ | ⟨_, _ | ⟨_, before⟩⟩⟩⟩
    · cases whole; decide
    · cases whole; decide
    · cases whole
      exact Nat.add_le_add_left area 16
    · cases whole; decide
    · have few := congrArg List.length whole
      simp [scattered, scatteredArguments] at few
  · intro before instr after ahead machine calls here _ operand member
    obtain ⟨source, listed, named⟩ :
        ∃ source ∈ scattered.function.code, operand ∈ source.operands := by
      rcases mem_append.mp member with direct | waiting
      · exact ⟨instr, here.mem, direct⟩
      · split at waiting
        · obtain ⟨entry, listed, rfl⟩ := mem_map.mp waiting
          obtain ⟨source, early, named⟩ := mem_pendingOf listed
          exact ⟨source, here.1 ▸ mem_append_left _ early, named⟩
        · cases waiting
    obtain ⟨arrays, globals⟩ := plain source listed operand named
    exact inRange_of_plain arrays globals _

end Placement

end ArmBackend.Machine
