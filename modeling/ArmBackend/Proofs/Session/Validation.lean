import ArmBackend.Proofs.Lowering.Targets
import ArmBackend.Proofs.Machine.Structure
import ArmBackend.Session

/-!
# Compiled programs are valid

The labels that lowering issues become local labels of the assembly, which differ from
one another and from the symbols of strings, data and functions.  So whatever is compiled
passes the checks, and every branch of the listing has one label to go to, in its own
function.
-/

namespace ArmBackend

open List

open Ir (labelName marksOf entryName Declared)

variable {input : Input} {context : Ir.Context} {program : Ir.Program} {assembly : Machine.Program}
  {options : Options}

namespace Machine

namespace Symbol

variable (number : Nat)

theorem ofLabel_labelName : ofLabel (labelName number) = ".L" ++ toString number := by
  have chars : (labelName number).toList = 'L' :: (toString number).toList := by
    simp [labelName]
  unfold ofLabel
  rw [chars]
  apply String.toList_injective
  simp [labelName]

theorem ofLabel_stringLabel (id : Nat) :
    ofLabel (Ir.Operand.stringLabel id) = ".Lstr" ++ toString id := by
  have chars : (Ir.Operand.stringLabel id).toList = '.' :: ("str" ++ toString id).toList := by
    simp [Ir.Operand.stringLabel]
  unfold ofLabel
  rw [chars]
  apply String.toList_injective
  simp

theorem ofLabel_labelName_injective {left right : Nat}
    (same : ofLabel (labelName left) = ofLabel (labelName right)) : left = right := by
  rw [ofLabel_labelName, ofLabel_labelName] at same
  exact Ir.append_toString_injective ".L" same

theorem toList_toString : (toString number).toList = Nat.toDigits 10 number := by
  have shown : toString number = Nat.repr number := rfl
  rw [shown, Nat.repr, String.toList_ofList]

theorem ofLabel_labelName_ne_stringLabel (number id : Nat) :
    ofLabel (labelName number) ≠ ofLabel (Ir.Operand.stringLabel id) := by
  intro same
  have chars := congrArg String.toList same
  rw [ofLabel_labelName, ofLabel_stringLabel, String.toList_append, String.toList_append] at chars
  have digits : (toString number).toList = 's' :: 't' :: 'r' :: (toString id).toList := by
    simpa using chars
  rw [toList_toString] at digits
  have first : 's' ∈ Nat.toDigits 10 number := digits ▸ mem_cons_self ..
  have digit := Nat.isDigit_of_mem_toDigits (by decide) (by decide) first
  exact absurd digit (by decide)

theorem ofLabel_labelName_ne_ofGlobal (name : String) :
    ofLabel (labelName number) ≠ ofGlobal name := by
  intro same
  have chars := congrArg String.toList same
  rw [ofLabel_labelName] at chars
  simp [ofGlobal] at chars

theorem startsWith_ofLabel_labelName : (ofLabel (labelName number)).toList.head? = some '.' := by
  rw [ofLabel_labelName]
  simp

end Symbol

namespace Program

/-- The labels in the bodies of all functions. -/
def bodyLabels (program : Program) : List String :=
  program.functions.flatMap fun function => labelsOf function.body

/-- A well-structured program whose labels are of the forms that lowering issues. -/
structure Issued (program : Program) : Prop where
  structured : program.Structured
  distinct : program.bodyLabels.Nodup
  labels : ∀ name ∈ program.bodyLabels, ∃ number, name = Symbol.ofLabel (labelName number)
  strings : ∀ object ∈ program.strings, ∃ id, object.label =
    Symbol.ofLabel (Ir.Operand.stringLabel id)
  data : ∀ object ∈ program.data, ∃ name, object.symbol = Symbol.ofGlobal name

section

variable {functions : List Ir.Function} {assembled : List Function}

variable (all : Forall₂ Function.Assembles functions assembled)
include all

theorem names_of_assembles : assembled.map Function.name = functions.map Ir.Function.name := by
  induction all with
  | nil => rfl
  | cons head _ ih => exact congrArg₂ List.cons head.name ih

theorem labels_of_assembles :
    (assembled.flatMap fun function => labelsOf function.body) =
      (marksOf (functions.flatMap Ir.Function.code)).map Symbol.ofLabel := by
  induction all with
  | nil => rfl
  | cons head _ ih =>
    rw [flatMap_cons, flatMap_cons, Ir.marksOf_append, map_append,
      head.labels, ih]

end

/-- The assembly of a labelled program. -/
theorem issued_ofIr (labelled : program.Labelled) (nonempty : program.functions ≠ [])
    {assembly : Program} (done : (ofIr program).result = .ok assembly) :
    assembly.Issued ∧ assembly.functions.map Function.name =
      program.functions.map Ir.Function.name := by
  unfold ofIr at done
  cases assembled : (Function.ofIrs program.globals program.functions).result with
  | error fault =>
    simp only [assembled] at done
    cases done
  | ok functions =>
    simp only [assembled] at done
    cases done
    have all := assembles_ofIrs assembled
    have labels := labels_of_assembles all
    have structured {function : Ir.Function} {assembled : Function}
        (assembles : Function.Assembles function assembled) (landing : Ir.Landing function.code) :
        assembled.Structured := by
      refine ⟨assembles.returns, ?_⟩
      rw [assembles.targets, assembles.labels]
      exact map_subset _ landing
    refine ⟨⟨⟨?_, Ir.forall_mem_of_forall₂ all structured labelled.landing⟩, ?_, ?_, ?_, ?_⟩,
      names_of_assembles all⟩
    · intro none
      have empty : functions = [] := none
      rw [empty] at all
      exact nonempty (forall₂_nil_right_iff.mp all)
    · rw [bodyLabels, labels]
      refine List.Nodup.map_on ?_ labelled.distinct
      intro one inOne two inTwo same
      obtain ⟨number, rfl⟩ := labelled.issued one inOne
      obtain ⟨number', rfl⟩ := labelled.issued two inTwo
      rw [Symbol.ofLabel_labelName_injective same]
    · intro name member
      rw [bodyLabels, labels] at member
      obtain ⟨mark, inside, rfl⟩ := mem_map.mp member
      obtain ⟨number, rfl⟩ := labelled.issued mark inside
      exact ⟨number, rfl⟩
    · intro object member
      obtain ⟨entry, _, rfl⟩ := mem_map.mp member
      exact ⟨entry.1, rfl⟩
    · intro object member
      obtain ⟨global, _, rfl⟩ := mem_map.mp member
      exact ⟨global.name, rfl⟩

theorem Issued.tidy {program : Program} (issued : program.Issued) :
    program.tidy.1.Issued ∧ program.tidy.1.functions.map Function.name =
      program.functions.map Function.name := by
  have keeps : Forall₂ Function.KeepsStructure program.functions program.tidy.1.functions :=
    keepsStructure_tidyFunctions Rule.standard program.functions
  have labels : program.tidy.1.bodyLabels = program.bodyLabels := labels_of_keepsStructure keeps
  refine ⟨⟨⟨?_, Ir.forall_mem_of_forall₂ keeps Function.KeepsStructure.structured
      issued.structured.functions⟩,
    labels ▸ issued.distinct, labels ▸ issued.labels, issued.strings, issued.data⟩,
    names_of_keepsStructure keeps⟩
  intro none
  rw [none] at keeps
  exact issued.structured.nonempty (forall₂_nil_right_iff.mp keeps)

theorem count_names_and_labels (functions : List Function) (name : String) :
    (functions.flatMap fun function => function.name :: labelsOf function.body).count name =
      (functions.map Function.name).count name +
        (functions.flatMap fun function => labelsOf function.body).count name := by
  induction functions with
  | nil => rfl
  | cons function rest ih =>
    rw [flatMap_cons, flatMap_cons, count_append, count_append, ih,
      count_cons, map_cons, count_cons]
    omega

theorem Issued.target_defined {program : Program} (issued : program.Issued)
    (plain : ∀ function ∈ program.functions, function.name.toList.head? ≠ some '.')
    {function : Function} (member : function ∈ program.functions) {target : String}
    (wanted : target ∈ targetsOf function.body) :
    Instr.label target ∈ function.body ∧ program.labels.count target = 1 := by
  have own := (issued.structured.functions function member).landing wanted
  have inside : target ∈ program.bodyLabels := mem_flatMap.mpr ⟨function, member, own⟩
  obtain ⟨number, rfl⟩ := issued.labels target inside
  refine ⟨mem_labelsOf.mp own, ?_⟩
  have strings : (program.strings.map StringObject.label).count
      (Symbol.ofLabel (labelName number)) = 0 := by
    refine count_eq_zero.mpr fun clash => ?_
    obtain ⟨object, here, same⟩ := mem_map.mp clash
    obtain ⟨id, label⟩ := issued.strings object here
    exact Symbol.ofLabel_labelName_ne_stringLabel number id (same.symm.trans label)
  have data : (program.data.map DataObject.symbol).count
      (Symbol.ofLabel (labelName number)) = 0 := by
    refine count_eq_zero.mpr fun clash => ?_
    obtain ⟨object, here, same⟩ := mem_map.mp clash
    obtain ⟨name, symbol⟩ := issued.data object here
    exact Symbol.ofLabel_labelName_ne_ofGlobal number name (same.symm.trans symbol)
  have names : (program.functions.map Function.name).count
      (Symbol.ofLabel (labelName number)) = 0 := by
    refine count_eq_zero.mpr fun clash => ?_
    obtain ⟨other, here, same⟩ := mem_map.mp clash
    exact plain other here (same ▸ Symbol.startsWith_ofLabel_labelName number)
  have once := count_eq_one_of_mem issued.distinct inside
  rw [bodyLabels] at once
  rw [labels_eq, count_append, count_append, strings, data, count_names_and_labels,
    names, once]

end Program

end Machine

namespace Options

/-- The program that is assembled: swept, if that is asked for. -/
def swept (options : Options) (program : Ir.Program) : Ir.Program :=
  if options.optimizeIr then program.optimize.program else program

/-- The assembly that is checked: tidied, if that is asked for. -/
def tidied (options : Options) (assembly : Machine.Program) : Machine.Program :=
  if options.optimizeAsm then assembly.tidy.1 else assembly

end Options

namespace Session

/-- Where the session stands, and what it has there. -/
structure Stands (session : Session) (progress : Progress) (program : Ir.Program)
    (assembly : Option Machine.Program) : Prop where
  progress : session.progress = progress
  program : session.program = some program
  assembly : session.assembly = assembly

/-- The phase succeeds, and the session then stands where it is said. -/
def Reaches (input : Input) (session : Session) (phase : Phase) (progress : Progress)
    (program : Ir.Program) (assembly : Option Machine.Program) : Prop :=
  ∃ next, session.run input phase = succeed next ∧ next.Stands progress program assembly

section

variable {input : Input} {session : Session} {program : Ir.Program}

theorem enter_of_allowed {phase : Phase} (work : Session → Step)
    (allowed : session.progress ∈ phase.allowed) : session.enter phase work = work session := by
  have going : session.progress ≠ .failed := by
    intro failed
    rw [failed] at allowed
    revert allowed
    cases phase <;> decide
  rw [enter, if_neg going, if_pos allowed]

theorem reaches_generateIr (idle : session.progress = .idle) (none : session.assembly = none)
    (errors : input.errors = [])
    (lowered : Ir.Program.ofTree input.scopes session.options.suppressReturn input.tree =
      .ok (program, context)) :
    session.Reaches input .generateIr .irGenerated program .none := by
  rw [Reaches, run, generateIr, enter_of_allowed _ (by rw [idle]; decide)]
  simp only [errors, isEmpty_nil, if_true, tell, lowered]
  exact ⟨_, rfl, rfl, rfl, none⟩

theorem reaches_optimizeIr (stands : session.Stands .irGenerated program none) :
    session.Reaches input .optimizeIr .irOptimized program.optimize.program none := by
  rw [Reaches, run, optimizeIr, enter_of_allowed _ (by rw [stands.progress]; decide)]
  simp only [stands.program]
  exact ⟨_, rfl, rfl, rfl, stands.assembly⟩

theorem reaches_generateAsm {progress : Progress} (stands : session.Stands progress program none)
    (lowered : progress ∈ Phase.generateAsm.allowed)
    (assembled : (Machine.Program.ofIr program).result = .ok assembly) :
    session.Reaches input .generateAsm .asmGenerated (recordFrames assembly program) assembly := by
  rw [Reaches, run, generateAsm, enter_of_allowed _ (by rw [stands.progress]; exact lowered)]
  simp only [stands.program, assembled]
  exact ⟨_, rfl, rfl, rfl, rfl⟩

theorem reaches_optimizeAsm (stands : session.Stands .asmGenerated program (some assembly)) :
    session.Reaches input .optimizeAsm .asmOptimized program assembly.tidy.1 := by
  rw [Reaches, run, optimizeAsm, enter_of_allowed _ (by rw [stands.progress]; decide)]
  simp only [stands.assembly]
  exact ⟨_, rfl, rfl, stands.program, rfl⟩

theorem reaches_validate {progress : Progress}
    (stands : session.Stands progress program (some assembly))
    (assembled : progress ∈ Phase.validate.allowed) (valid : assembly.problems = []) :
    session.Reaches input .validate .validated program assembly := by
  rw [Reaches, run, validate, enter_of_allowed _ (by rw [stands.progress]; exact assembled)]
  simp only [stands.assembly, valid, isEmpty_nil, if_true]
  exact ⟨_, rfl, rfl, stands.program, rfl⟩

/-- The phases take the session to the end where the assembly is found valid. -/
def EndsValid (input : Input) (assembly : Machine.Program) (session : Session)
    (phases : List Phase) : Prop :=
  ∃ framed, (session.runAll input phases).Stands .validated framed assembly

theorem EndsValid.of_reaches {phase : Phase} {progress : Progress} {rest : List Phase}
    {final : Machine.Program} {assembly : Option Machine.Program}
    (reaches : session.Reaches input phase progress program assembly)
    (onward : ∀ next : Session, next.Stands progress program assembly →
      next.EndsValid input final rest) : session.EndsValid input final (phase :: rest) := by
  obtain ⟨next, succeeds, stands⟩ := reaches
  rw [EndsValid, runAll, succeeds]
  exact onward next stands

theorem endsValid_of_asm (options : Options)
    (stands : session.Stands .asmGenerated program (some assembly))
    (valid : (options.tidied assembly).problems = []) :
    session.EndsValid input (options.tidied assembly)
      ((if options.optimizeAsm then [.optimizeAsm] else []) ++ [.validate]) := by
  cases asked : options.optimizeAsm with
  | true =>
    simp only [Options.tidied, asked, if_true] at valid ⊢
    refine .of_reaches (reaches_optimizeAsm stands) fun next there => ?_
    exact .of_reaches (reaches_validate there (by decide) valid) fun last done => ⟨program, done⟩
  | false =>
    simp only [Options.tidied, asked, Bool.false_eq_true, if_false] at valid ⊢
    exact .of_reaches (reaches_validate stands (by decide) valid) fun last done => ⟨program, done⟩

theorem endsValid_of_ir (options : Options) (stands : session.Stands .irGenerated program none)
    (assembled : (Machine.Program.ofIr (options.swept program)).result = .ok assembly)
    (valid : (options.tidied assembly).problems = []) :
    session.EndsValid input (options.tidied assembly)
      ((if options.optimizeIr then [.optimizeIr] else []) ++ .generateAsm ::
        ((if options.optimizeAsm then [.optimizeAsm] else []) ++ [.validate])) := by
  cases asked : options.optimizeIr with
  | true =>
    simp only [Options.swept, asked, if_true] at assembled ⊢
    refine .of_reaches (reaches_optimizeIr stands) fun next there => ?_
    exact .of_reaches (reaches_generateAsm there (by decide) assembled) fun last done =>
      endsValid_of_asm options done valid
  | false =>
    simp only [Options.swept, asked, Bool.false_eq_true, if_false] at assembled ⊢
    exact .of_reaches (reaches_generateAsm stands (by decide) assembled) fun last done =>
      endsValid_of_asm options done valid

end

end Session

theorem endsValid_compile (errors : input.errors = [])
    (lowered : Ir.Program.ofTree input.scopes options.suppressReturn input.tree =
      .ok (program, context))
    (assembled : (Machine.Program.ofIr (options.swept program)).result = .ok assembly)
    (valid : (options.tidied assembly).problems = []) :
    ∃ framed, (compile options input).Stands .validated framed (options.tidied assembly) := by
  have first : (Session.start options).Reaches input .generateIr .irGenerated program none :=
    Session.reaches_generateIr rfl rfl errors lowered
  have ends := Session.EndsValid.of_reaches first fun next there =>
    Session.endsValid_of_ir options there assembled valid
  simpa [Session.EndsValid, compile, Options.phases] using ends

theorem issued_compile (lowered : Ir.Program.ofTree input.scopes options.suppressReturn input.tree =
      .ok (program, context))
    (assembled : (Machine.Program.ofIr (options.swept program)).result = .ok assembly) :
    (options.tidied assembly).Issued ∧
      (options.tidied assembly).functions.map Machine.Function.name =
        entryName :: (Declared.all input.tree).map Declared.name := by
  obtain ⟨labelled, names⟩ := Ir.ofTree_labelled lowered
  have swept : (options.swept program).Labelled ∧
      (options.swept program).functions.map Ir.Function.name =
        program.functions.map Ir.Function.name := by
    unfold Options.swept
    split
    · exact labelled.optimize
    · exact ⟨labelled, rfl⟩
  have nonempty : (options.swept program).functions ≠ [] := by
    intro none
    have same := swept.2.trans names
    rw [none] at same
    cases same
  obtain ⟨issued, kept⟩ := Machine.Program.issued_ofIr swept.1 nonempty assembled
  have tidied : (options.tidied assembly).Issued ∧
      (options.tidied assembly).functions.map Machine.Function.name =
        assembly.functions.map Machine.Function.name := by
    unfold Options.tidied
    split
    · exact issued.tidy
    · exact ⟨issued, rfl⟩
  exact ⟨tidied.1, ((tidied.2.trans kept).trans swept.2).trans names⟩

/--
Whatever can be lowered and assembled is found valid, so a compilation fails only by errors
in the input, in lowering or in assembly.  In the listing every branch has exactly one
label, in the function of the branch, unless a declared function has a name with a dot in
front.
-/
theorem compile_validates (options : Options) (input : Input) :
    (∀ program context assembly, input.errors = [] →
      Ir.Program.ofTree input.scopes options.suppressReturn input.tree = .ok (program, context) →
      (Machine.Program.ofIr (options.swept program)).result = .ok assembly →
      (options.tidied assembly).problems = [] ∧
      (∃ framed, (compile options input).Stands .validated framed (options.tidied assembly)) ∧
      ((∀ declared ∈ Declared.all input.tree, declared.name.toList.head? ≠ some '.') →
        ∀ function ∈ (options.tidied assembly).functions,
        ∀ target ∈ function.body.filterMap Machine.Instr.target?,
          Machine.Instr.label target ∈ function.body ∧
            (options.tidied assembly).labels.count target = 1)) ∧
    ((compile options input).progress = .failed →
      input.errors ≠ [] ∨
      (∃ error, Ir.Program.ofTree input.scopes options.suppressReturn input.tree =
        .error error) ∨
      ∃ program context fault,
        Ir.Program.ofTree input.scopes options.suppressReturn input.tree =
          .ok (program, context) ∧
        (Machine.Program.ofIr (options.swept program)).result = .error fault) := by
  constructor
  · intro program context assembly errors lowered assembled
    obtain ⟨issued, names⟩ := issued_compile lowered assembled
    have valid := issued.structured.problems_eq
    refine ⟨valid, endsValid_compile errors lowered assembled valid, ?_⟩
    intro plain function member target wanted
    refine issued.target_defined (fun other here => ?_) member wanted
    have named : other.name ∈ entryName :: (Declared.all input.tree).map Declared.name :=
      names ▸ List.mem_map_of_mem here
    rcases List.mem_cons.mp named with same | inside
    · rw [same]
      decide
    · obtain ⟨declared, listed, same⟩ := List.mem_map.mp inside
      exact same ▸ plain declared listed
  · intro failed
    by_cases errors : input.errors = []
    · refine .inr ?_
      cases lowered : Ir.Program.ofTree input.scopes options.suppressReturn input.tree with
      | error error => exact .inl ⟨error, rfl⟩
      | ok result =>
        obtain ⟨program, context⟩ := result
        refine .inr ?_
        cases assembled : (Machine.Program.ofIr (options.swept program)).result with
        | error fault => exact ⟨program, context, fault, rfl, assembled⟩
        | ok assembly =>
          have valid := (issued_compile lowered assembled).1.structured.problems_eq
          obtain ⟨framed, ends⟩ := endsValid_compile errors lowered assembled valid
          rw [ends.progress] at failed
          cases failed
    · exact .inl errors

/-- A loop with a way out in the middle. -/
def branching : Input where
  tree :=
    ⟨[.varDecl ⟨1, 1⟩ "n" .int none,
      .whileLoop ⟨2, 1⟩ (.binary ⟨2, 8⟩ .less (.name ⟨2, 8⟩ "n") (.int ⟨2, 12⟩ 9))
        [.ifElse ⟨3, 3⟩ (.binary ⟨3, 7⟩ .equal (.name ⟨3, 7⟩ "n") (.int ⟨3, 12⟩ 5))
          [.breakLoop ⟨4, 5⟩] none,
        .assign ⟨5, 3⟩ "n" (.binary ⟨5, 7⟩ .add (.name ⟨5, 7⟩ "n") (.int ⟨5, 11⟩ 1))]]⟩

theorem branching_validates :
    ∃ framed assembly, (compile {} branching).Stands .validated framed (some assembly) ∧
      (∃ function ∈ assembly.functions, Machine.targetsOf function.body ≠ []) ∧
      ∀ function ∈ assembly.functions,
      ∀ target ∈ function.body.filterMap Machine.Instr.target?,
        Machine.Instr.label target ∈ function.body ∧ assembly.labels.count target = 1 := by
  have works : ((Ir.Program.ofTree branching.scopes false branching.tree).toOption.any fun result =>
      (Machine.Program.ofIr (Options.swept {} result.1)).result.toOption.any fun assembly =>
        (Options.tidied {} assembly).functions.any fun function =>
          !(Machine.targetsOf function.body).isEmpty) = true := by
    decide +kernel
  obtain ⟨⟨program, context⟩, lowered, works⟩ := (Option.any_eq_true ..).mp works
  obtain ⟨assembly, assembled, branches⟩ := (Option.any_eq_true ..).mp works
  have lowered : Ir.Program.ofTree branching.scopes false branching.tree = .ok (program, context) := by
    cases result : Ir.Program.ofTree branching.scopes false branching.tree <;>
      rw [result] at lowered <;> cases lowered
    rfl
  have assembled : (Machine.Program.ofIr (Options.swept {} program)).result = .ok assembly := by
    cases result : (Machine.Program.ofIr (Options.swept {} program)).result <;>
      rw [result] at assembled <;> cases assembled
    rfl
  obtain ⟨_, ⟨framed, ends⟩, unique⟩ :=
    (compile_validates {} branching).1 program context assembly rfl lowered assembled
  exact ⟨framed, _, ends, by simpa using branches, unique (by decide)⟩

end ArmBackend
