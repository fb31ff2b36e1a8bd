import ArmBackend.Proofs.Lowering.Numbering

/-!
# Lowered programs are well formed

What may be relied on in the program of every tree, and behind passes in any order: functions
have their frames, a temporary that is read was written once, further up in straight code,
branches go to labels of the function, calls have their arguments in front of them, and
strings that are referred to are in the table.
-/

namespace ArmBackend.Ir

open List

/-- The code begins a function and ends it. -/
def Framed (code : List Instr) : Prop :=
  (∃ first ∈ code.head?, first.opcode = .enter) ∧
    ∃ last ∈ code.getLast?, last.opcode = .ret ∨ last.opcode = .exit

/-- The instruction gives the temporary its value. -/
def Instr.defines (name : String) (instr : Instr) : Bool :=
  instr.defined = some (.temp name)

/-- Behind the code the temporary has a value, which it got in straight code. -/
def DefinedIn (before : List Instr) (name : String) : Prop :=
  ∃ front definer middle, before = front ++ definer :: middle ∧ definer.defines name = true ∧
    ∀ instr ∈ middle, instr.opcode.isBoundary = false

/-- Temporaries are read behind their definitions, with no label or branch between. -/
def ReadsDefined (code : List Instr) : Prop :=
  ∀ before instr after, code = before ++ instr :: after →
    ∀ name, .temp name ∈ instr.uses → DefinedIn before name

/-- A branch goes to a label of the function, which is the only one of its name. -/
def Instr.Lands (program : Program) (function : Function) (instr : Instr) : Prop :=
  ∃ target, instr.label = some target ∧ target ∈ marksOf function.code ∧
    (marksOf (program.functions.flatMap Function.code)).count target = 1

/-- What holds of a program whose functions make the calls. -/
structure Program.WellFormed (program : Program) (calls : List (List (String × Nat))) : Prop where
  framed : ∀ function ∈ program.functions, Framed function.code
  reads : ∀ function ∈ program.functions, ReadsDefined function.code
  /-- a temporary that is read is defined once in the whole program -/
  single : ∀ function ∈ program.functions, ∀ instr ∈ function.code, ∀ name,
    .temp name ∈ instr.uses →
      (program.functions.flatMap Function.code).countP (Instr.defines name) = 1
  lands : ∀ function ∈ program.functions, ∀ instr ∈ function.code,
    instr.opcode.isBranch = true → instr.Lands program function
  passing : Forall₂ (fun function => Passing 0 function.code) program.functions calls
  strings : ∀ function ∈ program.functions, ∀ instr ∈ function.code, ∀ name ∈ instr.references,
    program.strings.Lists name

/-- The calls of the source in the order of the code, with the numbers of arguments. -/
def Origin.argumentCounts (around : Surroundings) (origin : Origin) : List (String × Nat) :=
  (origin.calls around).map fun call => (call.1, call.2.length)

/-! ## Temporaries -/

variable {function : Function} {instr : Instr} {code : List Instr} {operand : Operand}
  {strict : Prop} {scan : Scan} {name : String} {around : Surroundings}

theorem Operand.Regular.ready (regular : operand.Regular scan) (read : .temp name ∈ operand.reads) :
    scan.ready name := by
  induction operand with
  | temp other type =>
    cases mem_singleton.mp read
    exact regular.1
  | element array index type ih =>
    rcases mem_cons.mp read with same | inner
    · cases same
    · exact ih regular inner
  | var _ _ | param _ _ | global _ _ => cases mem_singleton.mp read
  | label _ _ | immediate _ _ => cases read

theorem Instr.uses_eq (instr : Instr) : instr.uses = instr.inputs.flatMap Operand.reads := by
  rw [uses, inputs, flatMap_append]
  split <;> rfl

theorem Instr.Regular.ready (regular : instr.Regular scan) (read : .temp name ∈ instr.uses) :
    scan.ready name := by
  rw [instr.uses_eq] at read
  obtain ⟨operand, input, inside⟩ := mem_flatMap.mp read
  exact (regular.inputs operand input).ready inside

theorem Operand.location?_eq_temp :
    operand.location? = some (.temp name) ↔ operand.temp? = some name := by
  cases operand <;> simp [location?, temp?]

theorem Instr.Formed.defines_iff (formed : instr.Formed scan) (name : String) :
    instr.defines name = true ↔ instr.written?.bind Operand.temp? = some name := by
  have whole (all : instr.written? = instr.dest) :
      instr.defines name = true ↔ instr.written?.bind Operand.temp? = some name := by
    rw [defines, decide_eq_true_iff, defined, all]
    cases instr.dest with
    | none => simp
    | some dest => exact Operand.location?_eq_temp
  have part {dest : Operand} (written : instr.dest = some dest) (other : dest.temp? = none)
      (idle : instr.written? = none) :
      instr.defines name = true ↔ instr.written?.bind Operand.temp? = some name := by
    rw [defines, decide_eq_true_iff, defined, written, idle, Option.bind_some,
      Operand.location?_eq_temp, other]
    rfl
  cases formed with
  | computes _ opcode => exact whole (written?_of_computes opcode)
  | stores _ opcode => exact whole (written?_of_store opcode)
  | calls opcode => exact whole (written?_of_call opcode)
  | fills _ _ _ opcode written | reserves _ _ opcode written =>
    exact part written rfl (written?_eq_none (by rw [opcode]; decide))
  | passes _ written | plain _ written => exact whole (by rw [written?, written, ite_self])

theorem definedIn_of_ready {before : List Instr}
    (ready : ((Scan.empty strict).run before).ready name) : DefinedIn before name := by
  induction before using List.reverseRecOn with
  | nil => cases ready
  | append_singleton before instr ih =>
    rw [Scan.run, foldl_append, foldl_cons, foldl_nil] at ready
    cases straight : instr.opcode.isBoundary with
    | true =>
      rw [Scan.after, if_pos straight] at ready
      cases ready
    | false =>
      rcases (Scan.ready_after straight name).mp ready with written | earlier
      · have defines := decide_eq_true (Propagation.defined_of_written? written)
        exact ⟨before, instr, [], rfl, defines, by simp⟩
      · obtain ⟨front, definer, middle, same, defines, between⟩ := ih earlier
        refine ⟨front, definer, middle ++ [instr], by rw [same]; simp, defines, ?_⟩
        intro other member
        rcases mem_append.mp member with member | member
        · exact between other member
        · rw [mem_singleton.mp member]
          exact straight

theorem Regular.readsDefined (regular : Regular (.empty strict) code) : ReadsDefined code := by
  rintro before instr after rfl name read
  exact definedIn_of_ready ((regular_append.mp regular).2.1.ready read)

theorem countP_defines (formed : ∀ instr ∈ code, ∃ scan, instr.Formed scan) (name : String) :
    code.countP (Instr.defines name) = (tempsOf code).count name := by
  rw [tempsOf, filterMap_filterMap, count_filterMap]
  refine countP_congr fun instr member => ?_
  obtain ⟨scan, formed⟩ := formed instr member
  rw [formed.defines_iff, beq_iff_eq]

theorem countP_defines_eq_one (formed : ∀ instr ∈ code, ∃ scan, instr.Formed scan)
    (distinct : (tempsOf code).Nodup) {definer : Instr} (there : definer ∈ code)
    (defines : definer.defines name = true) : code.countP (Instr.defines name) = 1 := by
  have positive : 0 < code.countP (Instr.defines name) :=
    countP_pos_iff.mpr ⟨definer, there, defines⟩
  rw [countP_defines formed] at positive ⊢
  exact count_eq_one_of_mem distinct (count_pos_iff.mp positive)

/-! ## Frames and calls -/

theorem Closes.framed {origin : Origin} {body closing : List Instr}
    (closes : Closes origin body closing) :
    Framed (Instr.enter origin.name :: (body ++ closing)) := by
  refine ⟨⟨_, rfl, rfl⟩, ?_⟩
  cases closes with
  | returned ends =>
    rw [append_nil]
    unfold endsInReturn at ends
    split at ends
    · next last same => exact ⟨last, same, .inl (eq_of_beq ends)⟩
    · cases ends
  | ended =>
    refine ⟨origin.ending, ?_, ?_⟩
    · rw [← cons_append, getLast?_append]
      rfl
    · cases origin with
      | entry stmts => exact .inl rfl
      | declared function => exact .inr rfl

theorem Trims.framed {renames : Prop} {free : String → Prop} {trimmed : List Instr}
    (trims : Trims renames free code trimmed) (framed : Framed code) : Framed trimmed := by
  obtain ⟨⟨first, begins, enter⟩, last, ends, closes⟩ := framed
  constructor
  · cases code with
    | nil => cases begins
    | cons other rest =>
      obtain rfl : other = first := Option.some.inj begins
      obtain ⟨turned, more, rfl, same⟩ := trims.head (by rw [enter]; rfl)
      exact ⟨turned, rfl, same.trans enter⟩
  · have stands : last.opcode.isStanding = true := by
      rcases closes with ret | exit
      · rw [ret]; rfl
      · rw [exit]; rfl
    obtain ⟨turned, ends, same⟩ := trims.last ends stands
    exact ⟨turned, ends, same ▸ closes⟩

theorem Derives.hasFrame {origin : Origin} {context : Context} {final : Draft}
    (derives : Derives around strict origin context final function) : Framed function.code := by
  obtain ⟨body, closing, _, same, closes⟩ := derives.framed
  rw [same]
  exact closes.framed

/-! ## Passes in any order -/

/-- The others are the functions after passes in any order, which may differ among them. -/
def AfterPasses (functions others : List Function) : Prop :=
  Forall₂ (fun function other => ∃ passes, other = function.after passes) functions others

namespace AfterPasses

variable {functions others : List Function} (passed : AfterPasses functions others)
include passed

theorem keepsLanding : Forall₂ Function.KeepsLanding functions others := by
  refine Forall₂.imp ?_ passed
  rintro function other ⟨passes, rfl⟩
  exact function.keepsLanding_after passes

theorem sound (all : ∀ function ∈ functions, function.Sound strict) :
    ∀ function ∈ others, function.Sound strict := by
  refine forall_mem_of_forall₂ passed ?_ all
  rintro function _ ⟨passes, rfl⟩ sound
  exact sound.after passes

end AfterPasses

section

variable {functions others : List Function}
  (keeps : Forall₂ Function.KeepsLanding functions others)
include keeps

theorem trims_flatMap :
    Trims True (fun _ => True) (functions.flatMap Function.code)
      (others.flatMap Function.code) := by
  induction keeps with
  | nil => exact .nil
  | cons one _ ih =>
    rw [flatMap_cons, flatMap_cons]
    exact (Trims.mono one fun _ _ => trivial).append ih

theorem passing_of_trims {origins : List Origin}
    (giving : Forall₂ (fun function origin => Giving [] function.code (origin.calls around))
      functions origins) :
    Forall₂ (fun function => Passing 0 function.code) others
      (origins.map (Origin.argumentCounts around)) := by
  induction keeps generalizing origins with
  | nil =>
    cases giving
    exact .nil
  | cons one _ ih =>
    cases giving with
    | cons here rest => exact .cons (Trims.passing one here.passing) (ih rest)

end

theorem Instr.lands_of_sound {program : Program} (sound : function.Sound strict)
    (member : function ∈ program.functions)
    (distinct : (marksOf (program.functions.flatMap Function.code)).Nodup)
    (there : instr ∈ function.code) (branch : instr.opcode.isBranch = true) :
    instr.Lands program function := by
  obtain ⟨scan, here⟩ := sound.regular.of_mem instr there
  obtain ⟨target, named⟩ := Option.isSome_iff_exists.mp
    (here.formed.named (Opcode.isBoundary_of_isBranch branch))
  have jumps : target ∈ jumpTargets function.code :=
    mem_filterMap.mpr ⟨instr, there, by rw [target?, if_pos branch, named]⟩
  have landed := sound.landing jumps
  refine ⟨target, named, landed, count_eq_one_of_mem distinct ?_⟩
  obtain ⟨label, inside, marks⟩ := mem_filterMap.mp landed
  exact mem_filterMap.mpr ⟨label, mem_flatMap.mpr ⟨function, member, inside⟩, marks⟩

/--
The program of every tree is well formed, and stays so behind passes over its functions in any
order and number.  Its functions make the calls of the source.
-/
theorem ofTree_wellFormed {scopes : ScopeTrace} {suppress : Bool} {tree : Tree}
    {program : Program} {context : Context}
    (lowered : Program.ofTree scopes suppress tree = .ok (program, context))
    {functions : List Function} (passed : AfterPasses program.functions functions) :
    Program.WellFormed { program with functions }
      ((Origin.all tree).map (Origin.argumentCounts (.ofTree scopes tree))) := by
  have loosely : False → tree.isTyped scopes = true := False.elim
  obtain ⟨chain, _, table⟩ := ofTree_chain lowered loosely
  have issues := chain.issues
  have giving := chain.forall₂ fun _ => Derives.giving
  have labelled := (ofTree_labelled lowered).1
  have sound := ofTree_sound lowered loosely
  have keeps := passed.keepsLanding
  have trims := trims_flatMap keeps
  have sound' := passed.sound sound
  have distinct := issues.nodup.sublist (trims.written.filterMap Operand.temp?)
  have marks := labelled.distinct.sublist (marks_of_keepsLanding keeps)
  have formed : ∀ instr ∈ functions.flatMap Function.code, ∃ scan, instr.Formed scan := by
    intro instr member
    obtain ⟨function, there, inside⟩ := List.mem_flatMap.mp member
    obtain ⟨scan, here⟩ := (sound' function there).regular.of_mem instr inside
    exact ⟨scan, here.formed⟩
  have framed := chain.forall_mem Derives.hasFrame
  refine ⟨forall_mem_of_forall₂ keeps Trims.framed framed, ?_, ?_, ?_,
    passing_of_trims keeps giving, ?_⟩
  · exact fun function member => (sound' function member).regular.readsDefined
  · intro function member instr there name read
    obtain ⟨before, after, same⟩ := List.append_of_mem there
    obtain ⟨front, definer, middle, rfl, defines, _⟩ :=
      (sound' function member).regular.readsDefined before instr after same name read
    have inside : definer ∈ functions.flatMap Function.code := by
      refine List.mem_flatMap.mpr ⟨function, member, ?_⟩
      rw [same]
      simp
    exact countP_defines_eq_one formed distinct inside defines
  · intro function member instr there branch
    exact Instr.lands_of_sound (sound' function member) member marks there branch
  · intro function member instr there name label
    have inside : name ∈ (functions.flatMap Function.code).flatMap Instr.references :=
      List.mem_flatMap.mpr ⟨instr, List.mem_flatMap.mpr ⟨function, member, there⟩, label⟩
    show program.strings.Lists name
    rw [table]
    exact issues.references name (trims.references inside)

/-- A loop whose steps are made by a function that has a test and a string. -/
def stepping : Tree where
  statements :=
    [.functionDecl ⟨1, 1⟩ "step" [⟨"count", .int⟩, ⟨"limit", .int⟩] .int
        [.ifElse ⟨2, 3⟩ (.binary ⟨2, 7⟩ .less (.name ⟨2, 7⟩ "count") (.name ⟨2, 15⟩ "limit"))
          [.println ⟨3, 5⟩ (.str ⟨3, 13⟩ "less")] none,
        .ret ⟨5, 3⟩ (some (.name ⟨5, 10⟩ "count"))],
      .varDecl ⟨7, 1⟩ "round" .int none,
      .whileLoop ⟨8, 1⟩ (.binary ⟨8, 8⟩ .less (.name ⟨8, 8⟩ "round") (.int ⟨8, 16⟩ 2))
        [.assign ⟨9, 3⟩ "round" (.call ⟨9, 11⟩ "step"
          [.binary ⟨9, 16⟩ .add (.name ⟨9, 16⟩ "round") (.int ⟨9, 24⟩ 1), .int ⟨9, 27⟩ 2])]]

theorem stepping_wellFormed :
    ∃ program context, Program.ofTree .empty false stepping = .ok (program, context) ∧
      program.functions.map (fun function => function.code.length) = [13, 7] ∧
      (program.mapFunctions (Function.after [.loadForwarding, .jumps, .deadCode])).WellFormed
        [[("step", 2)], []] := by
  have sizes : ((Program.ofTree .empty false stepping).map fun entry =>
      entry.1.functions.map fun function => function.code.length).toOption = some [13, 7] := by
    decide +kernel
  cases lowered : Program.ofTree .empty false stepping with
  | error error =>
    rw [lowered] at sizes
    cases sizes
  | ok result =>
    rw [lowered] at sizes
    refine ⟨result.1, result.2, rfl, Option.some.inj sizes, ofTree_wellFormed lowered ?_⟩
    exact List.forall₂_map_right_iff.mpr (List.forall₂_same.mpr fun _ _ => ⟨_, rfl⟩)

end ArmBackend.Ir
