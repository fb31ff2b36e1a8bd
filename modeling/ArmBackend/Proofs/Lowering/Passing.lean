import ArmBackend.Proofs.Lowering.Derivation
import ArmBackend.Proofs.Passes.Trimming

/-!
# Passing of arguments

The code of a tree has the calls of the tree, in the order in which they are made.  Each
call has its arguments directly in front of it, with their positions, and each argument has
the type of its expression: arguments are not fitted to the parameters.
-/

namespace ArmBackend.Ir

open List

/--
In front of the code stand arguments of the types, with positions from zero on.  Each call
has the arguments that stand directly in front of it, and no argument is without a call.
-/
inductive Giving : List DataType → List Instr → List (String × List DataType) → Prop where
  | nil : Giving [] [] []
  | arg {types : List DataType} {instr : Instr} {value : Operand} {code : List Instr}
      {calls : List (String × List DataType)} (opcode : instr.opcode = .arg)
      (source : instr.src1 = some value) (position : instr.src2 = some (.nat types.length))
      (more : Giving (types ++ [value.type]) code calls) : Giving types (instr :: code) calls
  | call {types : List DataType} {instr : Instr} {callee : String} {code : List Instr}
      {calls : List (String × List DataType)} (opcode : instr.opcode = .call)
      (named : instr.label = some callee) (more : Giving [] code calls) :
      Giving types (instr :: code) ((callee, types) :: calls)
  | other {instr : Instr} {code : List Instr} {calls : List (String × List DataType)}
      (notArg : instr.opcode ≠ .arg) (notCall : instr.opcode ≠ .call)
      (more : Giving [] code calls) : Giving [] (instr :: code) calls

variable {calls : List (String × List DataType)} {types : List DataType} {code : List Instr}

namespace Giving

theorem append {first second : List Instr} {others : List (String × List DataType)}
    (one : Giving types first calls) (two : Giving [] second others) :
    Giving types (first ++ second) (calls ++ others) := by
  induction one with
  | nil => exact two
  | arg opcode source position more ih => exact .arg opcode source position ih
  | call opcode named more ih => exact .call opcode named ih
  | other notArg notCall more ih => exact .other notArg notCall ih

/-- The arguments are counted. -/
theorem passing (giving : Giving types code calls) :
    Passing types.length code (calls.map fun call => (call.1, call.2.length)) := by
  induction giving with
  | nil => exact .nil
  | arg opcode source position more ih =>
    rw [length_append, length_singleton] at ih
    exact .arg opcode position ih
  | call opcode named more ih => exact .call opcode named ih
  | other notArg notCall more ih => exact .other notArg notCall ih

end Giving

theorem Giving.argCode (line : Nat) (operands : List Operand) (types : List DataType)
    (more : Giving (types ++ operands.map Operand.type) code calls) :
    Giving types (Lowered.argCode line types.length operands ++ code) calls := by
  induction operands generalizing types with
  | nil => rwa [map_nil, append_nil] at more
  | cons operand rest ih =>
    rw [map_cons, append_cons] at more
    have others := ih (types ++ [operand.type]) more
    rw [length_append, length_singleton] at others
    exact .arg rfl rfl rfl others

section

variable {place : Place} {arrays : List String} {strict : Prop} {words : Vocabulary}
  {known : List Operand} {uses : Uses}

/-- Only the step that calls passes arguments. -/
theorem Evaluates.giving {bindings : Bindings} {context : Context} {lowered : Lowered}
    (step : Evaluates place bindings strict words context known lowered uses) :
    Giving [] lowered.code uses.calls := by
  cases step with
  | literal => exact .nil
  | @read line name word =>
    cases place.resolve bindings name with
    | direct | array => exact .nil
    | shared => exact .other nofun nofun .nil
  | unary line type isPure =>
    have computes := Opcode.computes_of_isPure isPure
    exact .other (Opcode.ne_of_computes computes rfl) (Opcode.ne_of_computes computes rfl) .nil
  | @binary line opcode type left right isBinary =>
    have computes := Opcode.computes_of_isBinary isBinary
    exact .other (Opcode.ne_of_computes computes rfl) (Opcode.ne_of_computes computes rfl) .nil
  | string | element => exact .other nofun nofun .nil
  | @call line callee operands there =>
    rw [code_call]
    exact Giving.argCode line operands [] (.call rfl rfl .nil)

variable {draft final : Draft} {last : List Operand} {code : List Instr}

theorem Emits.giving (emits : Emits place arrays strict words draft known code uses final last) :
    Giving [] code uses.calls := by
  cases emits with
  | forget | relabel => exact .nil
  | evaluate step => exact step.giving
  | print line newline there => cases newline <;> exact .other nofun nofun .nil
  | _ => exact .other nofun nofun .nil

/-- Written code has the calls that are said. -/
theorem Writes.giving
    (writes : Writes place arrays strict words draft known code uses final last) :
    Giving [] code uses.calls := by
  induction writes with
  | refl => exact .nil
  | step emits more ih => exact emits.giving.append ih

end

end ArmBackend.Ir
