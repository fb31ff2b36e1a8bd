import ArmBackend.Ir.Pass.Revision

/-!
# Constant propagation

A walk down the code that remembers which places hold a known literal.  All is
forgotten at a label, where control may come from elsewhere; the globals are
forgotten at a call.  Known literals are put only into operations whose result
depends on their sources alone.
-/

namespace ArmBackend.Ir

abbrev Known := List (Location × Immediate)

namespace Known

def get? (known : Known) (place : Location) : Option Immediate :=
  known.lookup place

def forget (known : Known) (place : Location) : Known :=
  known.filter fun entry => entry.1 != place

def learn (known : Known) (place : Location) (value : Immediate) : Known :=
  (place, value) :: known.forget place

def forgetGlobals (known : Known) : Known :=
  known.filter fun entry => !entry.1.isGlobal

/-- The literal that a place is known to hold after it was given `value`. -/
def record (known : Known) (place : Option Location) (value : Option Immediate) : Known :=
  match place, value with
  | some place, some value => known.learn place value
  | some place, none => known.forget place
  | none, _ => known

/-- The literal that an operand is or is known to hold. -/
def valueOf? (known : Known) (operand : Operand) : Option Immediate :=
  match operand.immediate? with
  | some value => some value
  | none => operand.location?.bind known.get?

/-- The literal that the place of an operand is known to hold. -/
def heldBy? (known : Known) (operand : Operand) : Option Immediate :=
  operand.location?.bind known.get?

/-- Put the known literal, with the type of the operand. -/
def substitute (known : Known) (operand : Operand) : Operand :=
  match known.heldBy? operand with
  | some value => .immediate value operand.type
  | none => operand

end Known

namespace Propagation

def substituteSources (known : Known) (instr : Instr) : Instr :=
  { instr with
    src1 := instr.src1.map known.substitute
    src2 := instr.src2.map known.substitute }

def hasKnownSource (known : Known) (instr : Instr) : Bool :=
  instr.sources.any fun source => (known.heldBy? source).isSome

/-- The instruction that a load of a known place becomes. -/
def knownLoad? (known : Known) (instr : Instr) : Option Instr :=
  match instr.src1.bind known.valueOf?, instr.dest with
  | some value, some dest =>
    some { Instr.loadImm dest value with comment := instr.comment, line := instr.line }
  | _, _ => none

/-- What an instruction becomes, and whether it changes. -/
def revise (known : Known) (instr : Instr) : Instr × Bool :=
  if instr.opcode.isPure then (substituteSources known instr, hasKnownSource known instr)
  else if instr.opcode = .load then
    match knownLoad? known instr with
    | some loaded => (loaded, true)
    | none => (instr, false)
  else (instr, false)

/-- What is known behind an instruction that has been revised. -/
def learn (known : Known) (instr : Instr) : Known :=
  if instr.opcode = .store then
    known.record instr.defined (instr.src1.bind known.valueOf?)
  else if instr.opcode = .loadImm ∨ instr.opcode = .move then
    known.record instr.defined instr.immediate1?
  else known.record instr.defined none

/-- What is still known in front of an instruction. -/
def enter (known : Known) (instr : Instr) : Known :=
  if instr.opcode = .label then []
  else if instr.opcode = .call then known.forgetGlobals
  else known

def run (known : Known) : List Instr → Revision
  | [] => .done
  | instr :: rest =>
    let known := enter known instr
    if instr.opcode = .label then .cons instr false (run known rest)
    else
      let (revised, changed) := revise known instr
      .cons revised changed (run (learn known revised) rest)

end Propagation

def propagateConstants (code : List Instr) : Revision :=
  Propagation.run [] code

end ArmBackend.Ir
