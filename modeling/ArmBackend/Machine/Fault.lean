import ArmBackend.CompileError

/-!
# Faults

Why a three-address function has no machine code.
-/

namespace ArmBackend.Machine

inductive Cause where
  | noHome (operand : String)
  /-- an operand or label is missing or out of place -/
  | malformed
  /-- an element is taken of a name that is no array -/
  | unknownArray (name : String)
  /-- the operands take more scratch registers than there are -/
  | noScratch
deriving DecidableEq

/-- Why a function has no machine code. -/
inductive Fault where
  /-- an instruction, given by its text, has no machine code -/
  | instr (function : String) (instr : String) (cause : Cause)
  | frameTooLarge (function : String) (bytes : Nat)
deriving DecidableEq

namespace Fault

def message : Fault → String
  | instr function _ (.noHome operand) =>
    "operand '" ++ operand ++ "' in '" ++ function ++ "' has no storage"
  | instr function text .malformed =>
    "malformed instruction in '" ++ function ++ "': " ++ text
  | instr function _ (.unknownArray name) =>
    "'" ++ name ++ "' in '" ++ function ++ "' is not a known array"
  | instr function text .noScratch =>
    "out of scratch registers translating '" ++ text ++ "' in '" ++ function ++ "'"
  | frameTooLarge function bytes =>
    "frame of '" ++ function ++ "' needs " ++ toString bytes ++
      " bytes, more than x29-relative addressing reaches"

/-- The fault as an error of the compilation; it has no place in the source. -/
def toError (fault : Fault) : CompileError :=
  .located .codegen .unknown fault.message

end Fault

end ArmBackend.Machine
