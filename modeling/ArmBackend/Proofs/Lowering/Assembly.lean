import ArmBackend.Proofs.Lowering.WellFormed
import ArmBackend.Proofs.Lowering.Widening
import ArmBackend.Proofs.Machine.Faults

/-!
# Assembly of lowered programs

A program that was lowered from a tree, optimized or not, has a home for every operand, enough
scratch registers for every instruction, and all parts of every instruction.  What can be
wrong with it is that it names an unknown array, that a frame is too large, or that a name
which a function reserves as an array is stored to as a scalar.
-/

namespace ArmBackend.Ir

open List

variable {context : Context} {function : Function} {strict : Prop}

/-- Values are no elements, so no index is one. -/
theorem admits_flat (words : Vocabulary) :
    Admits words (·.isElement = false) (·.isFlat = true) where
  value {operand} direct := by cases operand <;> first | rfl | cases direct
  temp _ _ := rfl
  literal _ _ _ := rfl
  label _ _ := rfl
  element _ _ direct := congrArg not direct
  global _ _ := rfl

theorem Derives.whole {around : Surroundings} {origin : Origin} {final : Draft}
    (derives : Derives around strict origin context final function) :
    Every Instr.Whole function.code := by
  intro instr member
  have parts := (derives.apt instr member).parts
  simp only [Instr.hasParts, Bool.and_eq_true, Bool.or_eq_true, beq_iff_eq, bne_iff_ne,
    decide_eq_true_eq] at parts
  obtain ⟨⟨first, second⟩, callee⟩ := parts
  refine ⟨fun takes => first.resolve_left (by omega), fun takes => second.resolve_left (by omega),
    fun call => callee.resolve_left (absurd call), ?_⟩
  refine derives.every (admits_flat _) (fun {operand _} located _ => ?_) instr member
  cases operand <;> first | rfl | cases located

/-! ## Passes keep what assembly needs -/

/-- No array that the function reserves is stored to as a scalar. -/
def Function.KeepsArrays (function : Function) : Prop :=
  ∀ array ∈ function.code, array.opcode = .allocArray →
    ∀ store ∈ function.code, store.opcode = .store → store.defined ≠ array.defined

instance (function : Function) : Decidable function.KeepsArrays :=
  inferInstanceAs (Decidable (∀ array ∈ function.code, _ → ∀ store ∈ function.code, _ → _))

section

variable {renames : Prop} {free : String → Prop} {code trimmed : List Instr}
  (trims : Trims renames free code trimmed)
include trims

theorem Trims.whole (whole : Every Instr.Whole code) : Every Instr.Whole trimmed := by
  intro turned member
  obtain ⟨instr, there, turns⟩ := trims.origin turned member
  exact turns.whole (whole instr there)

end

theorem Function.KeepsArrays.of_trims {renames : Prop} {free : String → Prop} {other : Function}
    (keeps : function.KeepsArrays) (trims : Trims renames free function.code other.code) :
    other.KeepsArrays := by
  intro array member reserves store inside stores
  obtain ⟨array', member', turns⟩ := trims.origin array member
  obtain ⟨store', inside', turns'⟩ := trims.origin store inside
  have kept := turns.keeps (.inr reserves)
  have kept' := turns'.keeps (.inl (by rw [stores]; rfl))
  have reserves' : array'.opcode = .allocArray := kept.opcode ▸ reserves
  have stores' : store'.opcode = .store := kept'.opcode ▸ stores
  rw [Instr.defined, Instr.defined, kept.dest (by rw [reserves']; decide),
    kept'.dest (by rw [stores']; decide)]
  exact keeps array' member' reserves' store' inside' stores'

/-! ## Assembly -/

open Machine (Guard Site)
open ArmBackend.Frame (Layout)

theorem Function.Sound.serves (sound : function.Sound strict)
    (whole : Every Instr.Whole function.code) (globals : List Global) {guard : Guard}
    (keeps : guard.parts → function.KeepsArrays) (loose : ¬ guard.arrays) :
    Machine.Function.Serves globals guard function := by
  intro layout laid instr member
  obtain ⟨scan, shape, _⟩ := sound.regular.of_mem instr member
  have fresh {dest : Operand} (fresh : Instr.Fresh scan dest) :
      Site.Writes ⟨layout, globals⟩ guard dest := by
    refine ⟨fun _ => .inl fresh.isTemp, fun parts place named base length found => ?_⟩
    obtain ⟨array, ⟨there, opcode, defined⟩, _⟩ := Layout.reserves_of_array laid found
    obtain ⟨scan', shape', _⟩ := sound.regular.of_mem array there
    obtain ⟨name, type, rfl, _⟩ := fresh
    cases mem_singleton.mp named
    cases shape' with
    | reserves _ _ _ written => rw [Instr.defined, written] at defined; cases defined
    | computes _ other | stores _ other | fills _ _ _ other | calls other | passes other
    | plain other => rw [opcode] at other; cases other
  refine ⟨fun operand inside =>
      ⟨whole instr member |>.flat operand inside, fun _ => ?_, (absurd · loose)⟩, ?_,
    fun _ => ⟨whole instr member, shape.named, ?_, shape.of_arrayStore, shape.position_of_arg⟩⟩
  · exact (Layout.sound_ofFunction laid).complete instr member operand inside
  · intro dest written
    cases shape with
    | computes target opcode given new =>
      rw [Instr.written?_of_computes opcode, given] at written
      cases written
      exact fresh new
    | stores target opcode given named =>
      rw [Instr.written?_of_store opcode, given] at written
      cases written
      refine ⟨fun _ => .inr named, fun parts place inside base length found => ?_⟩
      have there : dest.location? = some place := by
        cases dest with
        | var _ _ | param _ _ => exact congrArg some (mem_singleton.mp inside).symm
        | global _ _ => cases inside
        | _ => cases named
      obtain ⟨array, ⟨listed, reserves, defined⟩, _⟩ := Layout.reserves_of_array laid found
      refine keeps parts array listed reserves instr member opcode ?_
      rw [defined, Instr.defined, given]
      exact there
    | calls opcode new =>
      rw [Instr.written?_of_call opcode] at written
      exact fresh (new dest written)
    | fills _ _ _ opcode | reserves _ _ opcode | passes opcode =>
      rw [Instr.written?_eq_none (by rw [opcode]; rfl)] at written
      cases written
    | plain opcode =>
      rw [Instr.written?_eq_none (by revert opcode; cases instr.opcode <;> decide)] at written
      cases written
  · rintro (computes | store)
    · obtain ⟨dest, given, _⟩ := shape.of_computes computes
      rw [given]
      rfl
    · obtain ⟨dest, given, _⟩ := shape.of_store store
      rw [given]
      rfl

theorem ofTree_serves {scopes : ScopeTrace} {suppress : Bool} {tree : Tree}
    {program assembled : Program}
    (lowered : Program.ofTree scopes suppress tree = .ok (program, context))
    (same : assembled ∈ [program, program.optimize.program]) :
    ∀ function ∈ assembled.functions, Machine.Function.Serves assembled.globals
      ⟨True, ∀ function ∈ program.functions, function.KeepsArrays, False⟩ function := by
  have whole := (ofTree_chain lowered False.elim).1.forall_mem Derives.whole
  have sound : program.Sound False := ofTree_sound lowered False.elim
  rcases List.mem_pair.mp same with rfl | rfl
  · intro function member
    exact (sound function member).serves (whole function member) _
      (fun keeps => keeps function member) id
  · obtain ⟨passes, same⟩ := optimize_program program
    rw [same]
    intro function member
    obtain ⟨original, there, rfl⟩ := mem_map.mp member
    have trims := original.keepsLanding_after passes
    exact ((sound original there).after passes).serves (Trims.whole trims (whole original there)) _
      (fun keeps => (keeps original there).of_trims trims) id

/--
Assembly never runs out of scratch registers where no index is itself an element.  Of a lowered
program, optimized or not, it also finds a home for every operand, and it finds no instruction
malformed if no function stores to an array as to a scalar.
-/
theorem internal_faults_unreachable :
    (∀ program : Program,
      (∀ function ∈ program.functions, ∀ instr ∈ function.code, ∀ operand ∈ instr.operands,
        operand.isFlat = true) →
      ∀ name text, (Machine.Program.ofIr program).result ≠ .error (.instr name text .noScratch)) ∧
    ∀ scopes suppress tree program context,
      Program.ofTree scopes suppress tree = .ok (program, context) →
      ∀ assembled ∈ [program, program.optimize.program], ∀ name text,
        (∀ operand, (Machine.Program.ofIr assembled).result ≠
          .error (.instr name text (.noHome operand))) ∧
        (Machine.Program.ofIr assembled).result ≠ .error (.instr name text .noScratch) ∧
        ((∀ function ∈ program.functions, function.KeepsArrays) →
          (Machine.Program.ofIr assembled).result ≠ .error (.instr name text .malformed)) := by
  refine ⟨fun program flat name text failed => ?_, ?_⟩
  · have serves function member :=
      Machine.Function.serves_of_flat (flat function member) program.globals
    exact Machine.Program.not_bars serves failed trivial
  · intro scopes suppress tree program context lowered assembled same name text
    have serves := ofTree_serves lowered same
    refine ⟨fun operand failed => ?_, fun failed => ?_, fun keeps failed => ?_⟩
    · exact Machine.Program.not_bars serves failed trivial
    · exact Machine.Program.not_bars serves failed trivial
    · exact Machine.Program.not_bars serves failed keeps

/-- An array that is filled and read, with an index that is computed. -/
def filling : Tree where
  statements :=
    [.arrayDecl ⟨1, 1⟩ "row" .int 3 [.int ⟨1, 20⟩ 4, .int ⟨1, 23⟩ 5],
      .varDecl ⟨2, 1⟩ "last" .int (some (.int ⟨2, 13⟩ 2)),
      .println ⟨3, 1⟩ (.index ⟨3, 9⟩ "row" (.binary ⟨3, 13⟩ .sub (.name ⟨3, 13⟩ "last")
        (.int ⟨3, 20⟩ 1)))]

theorem filling_has_no_internal_faults :
    ∃ program context, Program.ofTree .empty false filling = .ok (program, context) ∧
      (∀ function ∈ program.functions, function.KeepsArrays) ∧
      ∀ name text,
        (Machine.Program.ofIr program.optimize.program).result ≠
          .error (.instr name text .malformed) := by
  have kept : ((Program.ofTree .empty false filling).map fun entry =>
      decide (∀ function ∈ entry.1.functions, function.KeepsArrays)).toOption = some true := by
    decide +kernel
  cases lowered : Program.ofTree .empty false filling with
  | error error =>
    rw [lowered] at kept
    cases kept
  | ok result =>
    rw [lowered] at kept
    have keeps := of_decide_eq_true (Option.some.inj kept)
    refine ⟨result.1, result.2, rfl, keeps, fun name text => ?_⟩
    have unreachable := internal_faults_unreachable.2 _ _ _ _ _ lowered
      result.1.optimize.program (List.mem_cons_of_mem _ (List.mem_singleton_self _)) name text
    exact unreachable.2.2 keeps

end ArmBackend.Ir
