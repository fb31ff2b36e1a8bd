import ArmBackend.Proofs.Lowering.Discipline
import ArmBackend.Proofs.Passes.Consumption

/-!
# Types of consumed values in optimized programs

The optimizer neither drops nor moves what prints, passes, returns or stores a value.  It also
keeps the types of these values in a function whose loads give the types of the values last
stored.  Functions of well-typed trees are so.  A function that stores the result of a call in
a variable of another type is not, and its print then goes to another routine.
-/

namespace ArmBackend.Ir

/-- The routine that prints the value of an instruction, as its type selects it. -/
def Instr.routine? (instr : Instr) : Option String :=
  match instr.opcode with
  | .print => instr.src1.map fun value => Machine.Symbol.ofPrint false value.type
  | .println => instr.src1.map fun value => Machine.Symbol.ofPrint true value.type
  | _ => none

/-- The print routines that code calls. -/
def routines (code : List Instr) : List String :=
  code.filterMap Instr.routine?

/-- The print routine of a consumed value. -/
def routineOf : Opcode × Option DataType → Option String
  | (.print, type) => type.map (Machine.Symbol.ofPrint false)
  | (.println, type) => type.map (Machine.Symbol.ofPrint true)
  | _ => none

/-- Print routines follow from what is consumed. -/
theorem routines_eq (code : List Instr) : routines code = (consumed code).filterMap routineOf := by
  rw [consumed, List.filterMap_map, List.filterMap_filter, routines]
  refine List.filterMap_congr fun instr _ => ?_
  rw [Instr.routine?]
  cases opcode : instr.opcode <;> simp [Opcode.consumes, routineOf, opcode, Function.comp_def]

theorem Program.Sound.loadsFit {program : Program} (sound : program.Sound True)
    {function : Function} (member : function ∈ program.functions) : function.LoadsFit :=
  (sound function member).regular.fits trivial (by rintro place type known; cases known)

/--
The optimizer keeps the operations that consume values, in their order.  In functions whose
loads give the types of the values last stored it keeps the types of the consumed values too,
and with them the print routines; all functions of a well-typed tree are such.
-/
theorem optimize_keeps_consumed {scopes : ScopeTrace} {suppress : Bool} {tree : Tree}
    {program : Program} {context : Context}
    (lowered : Program.ofTree scopes suppress tree = .ok (program, context)) :
    (tree.isTyped scopes = true → ∀ function ∈ program.functions, function.LoadsFit) ∧
      List.Forall₂ (fun function optimized =>
          optimized.name = function.name ∧
          consumers optimized.code = consumers function.code ∧
          (function.LoadsFit →
            consumed optimized.code = consumed function.code ∧
              routines optimized.code = routines function.code))
        program.functions program.optimize.program.functions := by
  refine ⟨fun typed function member =>
    (ofTree_sound lowered fun _ => typed).loadsFit member, ?_⟩
  have sound := ofTree_sound lowered False.elim
  obtain ⟨passes, same⟩ := optimize_program program
  rw [same, Program.mapFunctions, List.forall₂_map_right_iff, List.forall₂_same]
  intro function member
  refine ⟨function.name_after passes, function.consumers_after passes,
    fun fits => ?_⟩
  have kept := (sound function member).consumed_after fits passes
  exact ⟨kept, by rw [routines_eq, routines_eq, kept]⟩

/-- The loop that calls a function prints floats, before and after. -/
theorem scaling_keeps_consumed :
    scaling.isTyped .empty = true ∧
      ∃ program context, Program.ofTree .empty false scaling = .ok (program, context) ∧
        program.functions.map (fun function => routines function.code) =
          [["lark_println_float"], []] ∧
        (∀ function ∈ program.functions, function.LoadsFit) ∧
        List.Forall₂ (fun function optimized =>
            optimized.name = function.name ∧
            consumers optimized.code = consumers function.code ∧
            (function.LoadsFit →
              consumed optimized.code = consumed function.code ∧
                routines optimized.code = routines function.code))
          program.functions program.optimize.program.functions := by
  have typed : scaling.isTyped .empty = true := by decide +kernel
  have printed : ((Program.ofTree .empty false scaling).map fun entry =>
      entry.1.functions.map fun function => routines function.code).toOption =
        some [["lark_println_float"], []] := by
    decide +kernel
  refine ⟨typed, ?_⟩
  cases lowered : Program.ofTree .empty false scaling with
  | error error =>
    rw [lowered] at printed
    cases printed
  | ok result =>
    rw [lowered] at printed
    have kept := optimize_keeps_consumed lowered
    exact ⟨result.1, result.2, rfl, Option.some.inj printed, kept.1 typed, kept.2⟩

/-- A number that is initialized with the answer of a function. -/
def answering : Tree where
  statements :=
    [.functionDecl ⟨1, 1⟩ "ready" [] .bool
        [.ret ⟨2, 3⟩ (some (.binary ⟨2, 10⟩ .less (.name ⟨2, 10⟩ "state") (.int ⟨2, 18⟩ 5)))],
      .varDecl ⟨4, 1⟩ "state" .int (some (.call ⟨4, 14⟩ "ready" [])),
      .println ⟨5, 1⟩ (.name ⟨5, 9⟩ "state")]

/-- The number is loaded to be printed, and the optimizer prints the answer in its place. -/
theorem answering_prints_bool :
    (Program.ofTree .empty false answering).toOption.map (fun result =>
        (result.1.functions.map (fun function => consumed function.code),
          result.1.optimize.program.functions.map fun function => consumed function.code)) =
      some
        ([[(.store, some .bool), (.println, some .int), (.ret, some .int)], [(.ret, some .bool)]],
          [[(.store, some .bool), (.println, some .bool), (.ret, some .int)],
            [(.ret, some .bool)]]) := by
  decide +kernel

end ArmBackend.Ir
