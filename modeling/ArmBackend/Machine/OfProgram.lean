import ArmBackend.Diagnostic
import ArmBackend.Frame.Allocation
import ArmBackend.Machine.Program
import ArmBackend.Machine.Selection

/-!
# Machine code of programs

The functions are assembled in order and each of them instruction by instruction,
between a prologue and, unless its code leaves the function anyway, an epilogue.
The first fault stops the work; the warnings up to there remain.
-/

namespace ArmBackend.Machine

/-- The warnings on the way, and what came out. -/
structure Outcome (α : Type) where
  warnings : List Diagnostic
  result : Except Fault α

def dividesByLiteralZero (instr : Ir.Instr) : Bool :=
  (instr.opcode == .div || instr.opcode == .mod) && instr.immediate2?.any Ir.Immediate.isZero

def warning? (function : String) (instr : Ir.Instr) : Option Diagnostic :=
  let position := Position.atLine instr.line
  if instr.opcode = .push ∨ instr.opcode = .pop then
    some (.warning ("no ARM64 lowering for '" ++ shownText instr ++ "' in '" ++ function ++ "'")
      position)
  else if dividesByLiteralZero instr then
    some (.warning ("division by literal zero in '" ++ function ++ "': " ++ shownText instr)
      position)
  else none

def selectCode (site : Site) (function : String) (pending : Pending) :
    List Ir.Instr → Outcome (List Instr)
  | [] => ⟨[], .ok []⟩
  | instr :: rest =>
    match (site.select pending instr).run with
    | .error cause => ⟨[], .error (.instr function (shownText instr) cause)⟩
    | .ok code =>
      let others := selectCode site function (pendingAfter pending instr) rest
      ⟨(warning? function instr).toList ++ others.warnings, others.result.map (code ++ ·)⟩

/-- The code of a function leaves it at its end. -/
def leavesAtEnd (function : Ir.Function) : Bool :=
  match function.last? with
  | some instr => instr.opcode == .ret || instr.opcode == .exit
  | none => false

namespace Function

def withLayout (globals : List Ir.Global) (function : Ir.Function) (layout : Frame.Layout) :
    Outcome Function :=
  let selected := selectCode ⟨layout, globals⟩ function.name [] function.code
  ⟨selected.warnings, selected.result.map fun code =>
    { name := function.name
      frameSize := layout.size
      leaf := layout.leaf
      body := layout.prologue ++ code ++
        if leavesAtEnd function then [] else layout.epilogue }⟩

def ofIr (globals : List Ir.Global) (function : Ir.Function) : Outcome Function :=
  match Frame.Layout.ofFunction function with
  | .error bytes => ⟨[], .error (.frameTooLarge function.name bytes)⟩
  | .ok layout => withLayout globals function layout

def ofIrs (globals : List Ir.Global) : List Ir.Function → Outcome (List Function)
  | [] => ⟨[], .ok []⟩
  | function :: rest =>
    let first := ofIr globals function
    match first.result with
    | .error fault => ⟨first.warnings, .error fault⟩
    | .ok assembled =>
      let others := ofIrs globals rest
      ⟨first.warnings ++ others.warnings, others.result.map (assembled :: ·)⟩

end Function

namespace Program

def stringsOf (program : Ir.Program) : List StringObject :=
  program.strings.toList.map fun entry =>
    ⟨Symbol.ofLabel (Ir.Operand.stringLabel entry.1), entry.2⟩

/-- The memory of the variables of the program. -/
def dataOf (program : Ir.Program) : List DataObject :=
  program.globals.map fun global => ⟨Symbol.ofGlobal global.name, 8 * global.slots⟩

def ofIr (program : Ir.Program) : Outcome Program :=
  let assembled := Function.ofIrs program.globals program.functions
  ⟨assembled.warnings, assembled.result.map fun functions =>
    { strings := stringsOf program, data := dataOf program, functions }⟩

end Program

end ArmBackend.Machine
