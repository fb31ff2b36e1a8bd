import ArmBackend.Proofs.Lowering.Origins

/-!
# Integers that go to float places

Values that are stored or returned where a float is expected are floats: integers have been
converted on the way.  Arguments are not.  They are passed with the types of their
expressions, whatever the parameters are.
-/

namespace ArmBackend.Ir

/-- A literal is a float exactly if its type is. -/
def Operand.Genuine : Operand → Prop
  | immediate value type => value.isFloat = type.isFloat
  | _ => True

/-- What the instruction moves to a float place, or returns as a float, is a float. -/
def Instr.MovesFloats (result : DataType) (instr : Instr) : Prop :=
  match instr.opcode with
  | .store | .arrayStore => ∀ place ∈ instr.dest, ∀ value ∈ instr.src1, value.Widened place.type
  | .ret => ∀ value ∈ instr.src1, value.Widened result
  | _ => True

/-- The instruction takes no integer for a float. -/
structure Instr.Widens (result : DataType) (instr : Instr) : Prop where
  moved : instr.MovesFloats result
  /-- floats are computed from what their operations take; only conversions take integers -/
  computed : instr.opcode.computes = true → (typeOf instr.dest).isFloat = true →
    instr.isTyped = true
  literals : Every Operand.Genuine instr.sources

theorem Operand.genuine_of_location? {operand : Operand} {place : Location}
    (named : operand.location? = some place) : operand.Genuine := by
  cases operand with
  | immediate => cases named
  | _ => trivial

theorem admits_genuine (words : Vocabulary) : Admits words Operand.Genuine Operand.Genuine where
  value := id
  temp _ _ := trivial
  literal _ _ kind := kind
  label _ _ := trivial
  element _ _ _ := trivial
  global _ _ := trivial

/-- The parts that the operation needs are there. -/
def Instr.hasParts (instr : Instr) : Bool :=
  (instr.opcode.takes == 0 || instr.src1.isSome) && (instr.opcode.takes < 2 || instr.src2.isSome) &&
    (instr.opcode != .call || instr.label.isSome)

/-! ## Steps -/

/-- The instruction has its parts, and takes no integer for a float but as a literal. -/
structure Instr.Apt (result : DataType) (instr : Instr) : Prop where
  parts : instr.hasParts = true
  moved : instr.MovesFloats result
  computed : instr.opcode.computes = true → (typeOf instr.dest).isFloat = true →
    instr.isTyped = true

variable {context : Context} {final : Draft} {code : List Instr} {last : List Operand}

theorem Instr.Apt.of_computes {instr : Instr} {result : DataType} (parts : instr.hasParts = true)
    (computes : instr.opcode.computes = true)
    (typed : (typeOf instr.dest).isFloat = true → instr.isTyped = true) : instr.Apt result where
  parts := parts
  moved := by
    unfold MovesFloats
    split
    · next store => rw [store] at computes; cases computes
    · next store => rw [store] at computes; cases computes
    · next ret => rw [ret] at computes; cases computes
    · trivial
  computed _ := typed

section

variable {place : Place} {arrays : List String} {strict : Prop} {words : Vocabulary}
  {known : List Operand} {uses : Uses} {result : DataType} {draft : Draft}

theorem Evaluates.apt {bindings : Bindings} {lowered : Lowered}
    (step : Evaluates place bindings strict words context known lowered uses) :
    Every (Instr.Apt result) lowered.code := by
  cases step with
  | literal => exact .nil
  | @read line name word =>
    cases place.resolve bindings name with
    | direct | array => exact .nil
    | shared => exact .one (.of_computes rfl rfl fun _ => decide_eq_true rfl)
  | @unary line opcode type source isPure there typed single =>
    have computes := Opcode.computes_of_isPure isPure
    refine .one (.of_computes ?_ computes fun float => typed (.inr float))
    have other : opcode ≠ .call := Opcode.ne_of_computes computes rfl
    simp [Instr.hasParts, Instr.atLine, Instr.unary, single, other]
  | @binary line opcode type left right isBinary one two typed =>
    have computes := Opcode.computes_of_isBinary isBinary
    refine .one (.of_computes ?_ computes fun _ => typed)
    have other : opcode ≠ .call := Opcode.ne_of_computes computes rfl
    simp [Instr.hasParts, Instr.atLine, Instr.binary, other]
  | string | element => exact .one (.of_computes rfl rfl fun _ => rfl)
  | @call line callee operands there =>
    have passed : Every (Instr.Apt result) (Lowered.argCode line 0 operands) :=
      .argCode (fun _ _ (_ : True) => ⟨rfl, trivial, by rintro ⟨⟩⟩) 0 fun _ _ => trivial
    rw [code_call]
    exact passed.append (.one ⟨rfl, trivial, by rintro ⟨⟩⟩)

/-- No step takes an integer for a float. -/
theorem Emits.apt (emits : Emits place arrays strict words draft known code uses final last) :
    Every (Instr.Apt place.result) code := by
  have stores {target value : Operand} (line : Nat) (widened : value.Widened target.type) :
      Every (Instr.Apt place.result) [(Instr.store target value).atLine line] := by
    refine .one ⟨rfl, ?_, nofun⟩
    rintro _ ⟨⟩ _ ⟨⟩
    exact widened
  cases emits with
  | forget | relabel => exact .nil
  | evaluate step => exact step.apt
  | store line _ _ _ widened | declare line _ _ widened | begin line _ _ _ widened =>
    exact stores line widened
  | fill line word there there' widened =>
    refine .one ⟨rfl, ?_, nofun⟩
    rintro _ ⟨⟩ _ ⟨⟩
    exact widened
  | leave line there widened => exact .one ⟨rfl, widened, nofun⟩
  | print line newline there => cases newline <;> exact .one ⟨rfl, trivial, nofun⟩
  | reserve | mark | jump | enter | exit | test => exact .one ⟨rfl, trivial, nofun⟩

theorem Writes.apt (writes : Writes place arrays strict words draft known code uses final last) :
    Every (Instr.Apt place.result) code := by
  induction writes with
  | refl => exact .nil
  | step emits _ ih => exact emits.apt.append ih

end

/-! ## Programs -/

section

variable {around : Surroundings} {strict : Prop} {origin : Origin} {function : Function}
  (derives : Derives around strict origin context final function)
include derives

theorem Derives.apt : Every (Instr.Apt function.result) function.code :=
  derives.result ▸ derives.writes.apt

theorem Derives.widens : Every (Instr.Widens function.result) function.code := by
  intro instr member
  have apt := derives.apt instr member
  have genuine := derives.every (admits_genuine _) (fun located _ =>
    Operand.genuine_of_location? located) instr member
  exact ⟨apt.moved, apt.computed, genuine.subset (List.subset_append_right _ _)⟩

end

/--
What is stored in float places and what float functions return are floats, or come from what
has no value, in the program of every tree.  The calls are those of the source, with
arguments of the types of their expressions.
-/
theorem ofTree_widens {scopes : ScopeTrace} {suppress : Bool} {tree : Tree} {program : Program}
    {context : Context}
    (lowered : Program.ofTree scopes suppress tree = .ok (program, context)) :
    (∀ function ∈ program.functions, Every (Instr.Widens function.result) function.code) ∧
      List.Forall₂ (fun function origin =>
        Giving [] function.code (origin.calls (.ofTree scopes tree))) program.functions
        (Origin.all tree) := by
  have loosely : False → tree.isTyped scopes = true := False.elim
  have chain := (ofTree_chain lowered loosely).1
  exact ⟨chain.forall_mem Derives.widens, chain.forall₂ fun _ => Derives.giving⟩

/-- A function of a float, called with an integer; a float variable gets an integer, too. -/
def halving : Tree where
  statements :=
    [.functionDecl ⟨1, 1⟩ "half" [⟨"amount", .float⟩] .float
        [.ret ⟨2, 3⟩ (some (.binary ⟨2, 10⟩ .div (.name ⟨2, 10⟩ "amount") (.int ⟨2, 19⟩ 2)))],
      .varDecl ⟨4, 1⟩ "start" .float (some (.int ⟨4, 20⟩ 3)),
      .println ⟨5, 1⟩ (.call ⟨5, 9⟩ "half" [.int ⟨5, 14⟩ 3])]

theorem halving_widens :
    ∃ program context, Program.ofTree .empty false halving = .ok (program, context) ∧
      (∀ function ∈ program.functions, Every (Instr.Widens function.result) function.code) ∧
      List.Forall₂ (fun function origin =>
        Giving [] function.code (origin.calls (.ofTree .empty halving))) program.functions
        (Origin.all halving) := by
  have succeeds : (Program.ofTree .empty false halving).toOption.isSome = true := by decide +kernel
  cases lowered : Program.ofTree .empty false halving with
  | error error =>
    rw [lowered] at succeeds
    cases succeeds
  | ok result => exact ⟨result.1, result.2, rfl, ofTree_widens lowered⟩

/-- An integer argument is passed to a float parameter as it is. -/
theorem halving_passes_integer :
    (Declared.all halving).map (fun declared =>
        (declared.name, declared.parameters.map Parameter.type)) = [("half", [.float])] ∧
      (Program.ofTree .empty false halving).toOption.map (fun result =>
        (result.1.functions.flatMap Function.code).filter fun instr =>
          instr.opcode == .arg || instr.opcode == .call) =
      some [(Instr.arg (.int 3) 0).atLine 5,
        (Instr.call "half" (some (.temp "t0" .float))).atLine 5] := by
  decide +kernel

end ArmBackend.Ir
