import ArmBackend.Ir.Pass.Revision

/-!
# Redundant loads

A load directly behind a store to the same place is dropped, and the stored value
is read instead.  Only temporaries and literals are forwarded: a variable could be
assigned before it is read.
-/

namespace ArmBackend.Ir

namespace Instr

/-- Put `value` where the instruction reads the place. -/
def renameReads (place : Location) (value : Operand) (instr : Instr) : Instr :=
  { instr with
    src1 := instr.src1.map (Operand.rename place value)
    src2 := instr.src2.map (Operand.rename place value)
    dest :=
      if instr.opcode = .arrayStore then instr.dest.map (Operand.rename place value)
      else instr.dest }

/-- The value of a store that may be read in place of the stored place. -/
def forwardable? (store : Instr) : Option Operand :=
  match store.src1 with
  | some value => if value.isTemp || value.isImmediate then some value else none
  | none => none

/-- The place that a load behind a store fills, and the value that the store gave. -/
def forwarded? (store load : Instr) : Option (Location × Operand) :=
  if store.opcode = .store ∧ load.opcode = .load ∧ store.defined.isSome ∧
      store.defined = load.src1.bind Operand.location? then
    match load.defined, store.forwardable? with
    | some place, some value => some (place, value)
    | _, _ => none
  else none

end Instr

/--
Drop the loads that directly follow a store to their place.  What the dropped
loads would have filled is replaced in the rest of the code; `settle` makes the
replacements so far.
-/
def forwardFrom (settle : Instr → Instr) : List Instr → Revision
  | [] => .done
  | [instr] => .cons (settle instr) false .done
  | store :: load :: rest =>
    match (settle store).forwarded? (settle load) with
    | some (place, value) =>
      .cons (settle store) true
        (forwardFrom (fun instr => (settle instr).renameReads place value) rest)
    | none => .cons (settle store) false (forwardFrom settle (load :: rest))

def forwardLoads (code : List Instr) : Revision :=
  forwardFrom id code

end ArmBackend.Ir
