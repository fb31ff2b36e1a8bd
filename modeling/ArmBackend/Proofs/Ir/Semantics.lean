import ArmBackend.Proofs.Ir.State

/-!
# Running three-address code

Each activation of a function has places and arrays of its own; globals are shared.
Control is the code that is still ahead of it.  A run leaves a trace of what can be
seen from outside: printed values, calls, stores to globals and returns.
-/

namespace ArmBackend

/-- A value that was printed, with its type, and whether the line ends behind it. -/
structure Printed where
  newline : Bool
  type : DataType
  value : Word
deriving DecidableEq

namespace Ir

/-- Something that can be seen from outside. -/
inductive Event where
  | print (printed : Printed)
  | call (callee : String) (arguments : List (Nat × Word))
  | store (global : String) (value : Word)
  | storeElement (array : String) (index value : Word)
  | ret (value : Option Word)
deriving DecidableEq

namespace Event

def printed? : Event → Option Printed
  | print printed => some printed
  | _ => none

/-- The printed values of a trace. -/
def printedOf (trace : List Event) : List Printed :=
  trace.filterMap printed?

theorem printedOf_append (first second : List Event) :
    printedOf (first ++ second) = printedOf first ++ printedOf second :=
  List.filterMap_append

/-- An event that is no output does not add to it. -/
theorem printedOf_silent {event : Event} (silent : event.printed? = none) (trace : List Event) :
    printedOf (trace ++ [event]) = printedOf trace := by
  rw [printedOf_append, printedOf, printedOf, List.filterMap_cons_none silent, List.filterMap_nil,
    List.append_nil]

end Event

namespace Operand

/-- The operand as a destination takes a value; a literal or a label takes none. -/
def assign (setting : Setting) (owns : String → Bool) (state : State) (value : Word) :
    Operand → State
  | element array index _ =>
    if index.type.isFloat then state
    else state.setElement (owns array) array (index.value setting owns state) value
  | dest =>
    match dest.location? with
    | some place => state.set place value
    | none => state

/-- What is seen of the assignment: stores to globals. -/
def stored (setting : Setting) (owns : String → Bool) (state : State) (value : Word) :
    Operand → List Event
  | global name _ => [.store name value]
  | element array index _ =>
    if index.type.isFloat || owns array then []
    else [.storeElement array (index.value setting owns state) value]
  | _ => []

theorem assign_of_location? {operand : Operand} {place : Location}
    (named : operand.location? = some place) (setting : Setting) (owns : String → Bool)
    (state : State) (value : Word) :
    operand.assign setting owns state value = state.set place value := by
  cases operand <;> cases named <;> rfl

end Operand

/-- What an instruction does by itself. -/
inductive Effect where
  /-- goes on behind the instruction -/
  | next (state : State) (events : List Event)
  | jump (target : Option String)
  | call (callee : Option String) (dest : Option Operand)
  | leave (value : Option Word)

/-- Operations that give a value to their destination and go on. -/
def Opcode.givesValue : Opcode → Bool
  | .loadImm | .load | .store | .loadAddr | .move | .add | .sub | .mul | .div | .mod | .neg | .and
  | .or | .not | .eq | .ne | .lt | .le | .gt | .ge | .intToFloat | .floatToInt | .arrayLoad
  | .arrayStore => true
  | _ => false

namespace Instr

section

variable (setting : Setting) (owns : String → Bool) (state : State) (instr : Instr)

/-- The value of the first source; a source that is missing counts as zero. -/
def first : Word :=
  (instr.src1.map (Operand.value setting owns state)).getD 0

/-- The value of the second source. -/
def second : Word :=
  (instr.src2.map (Operand.value setting owns state)).getD 0

/-- One float among the sources makes the operation one on floats. -/
def onFloats : Bool :=
  instr.sources.any fun source => source.type.isFloat

/-- The type of the first source; a source that is missing counts as an integer. -/
def firstType : DataType :=
  (instr.src1.map Operand.type).getD .int

/-- The value that the instruction gives to its destination. -/
def result : Word :=
  if instr.opcode.isBinary then
    instr.opcode.onTwo setting.floats instr.onFloats (instr.first setting owns state)
      (instr.second setting owns state)
  else
    instr.opcode.onOne setting.floats instr.firstType.isFloat (instr.first setting owns state)

/-- Give a value to the destination, if there is one. -/
def give (value : Word) : Effect :=
  match instr.dest with
  | some dest =>
    .next (dest.assign setting owns state value) (dest.stored setting owns state value)
  | none => .next state []

/-- The position of an argument. -/
def position : Nat :=
  ((instr.immediate2?.map Immediate.toWord).getD 0).toInt.toNat

/-- What is seen of a printed value. -/
def printed (newline : Bool) : Event :=
  .print ⟨newline, instr.firstType, instr.first setting owns state⟩

def effect : Effect :=
  match instr.opcode with
  | .label | .enter | .nop | .allocArray => .next state []
  | .jump => .jump instr.label
  | .jumpIfTrue =>
    if instr.first setting owns state = 0 then .next state [] else .jump instr.label
  | .jumpIfFalse =>
    if instr.first setting owns state = 0 then .jump instr.label else .next state []
  | .call => .call instr.label instr.dest
  | .ret => .leave (instr.src1.map (Operand.value setting owns state))
  | .exit => .leave none
  | .arg =>
    let pending := state.locals.pending ++ [(instr.position, instr.first setting owns state)]
    .next { state with locals := { state.locals with pending } } []
  | .push =>
    let stack := instr.first setting owns state :: state.locals.stack
    .next { state with locals := { state.locals with stack } } []
  | .pop =>
    instr.give setting owns
      { state with locals := { state.locals with stack := state.locals.stack.tail } }
      (state.locals.stack.head?.getD 0)
  | .print => .next state [instr.printed setting owns state false]
  | .println => .next state [instr.printed setting owns state true]
  | _ => instr.give setting owns state (instr.result setting owns state)

end

theorem effect_of_givesValue {instr : Instr} (gives : instr.opcode.givesValue = true)
    (setting : Setting) (owns : String → Bool) (state : State) :
    instr.effect setting owns state =
      instr.give setting owns state (instr.result setting owns state) := by
  unfold effect
  cases opcode : instr.opcode <;> first | rfl | (rw [opcode] at gives; cases gives)

/-- The instruction is the label of the name. -/
def marks (instr : Instr) (name : String) : Bool :=
  instr.opcode == .label && instr.label == some name

theorem opcode_of_marks {instr : Instr} {name : String} (marks : instr.marks name = true) :
    instr.opcode = .label :=
  eq_of_beq (Bool.and_eq_true_iff.mp marks).1

end Instr

/-- The code behind the first label of the name. -/
def afterLabel (name : String) : List Instr → Option (List Instr)
  | [] => none
  | instr :: rest => if instr.marks name then some rest else afterLabel name rest

namespace Function

/-- The function has the array in its own frame. -/
def owns (function : Function) (array : String) : Bool :=
  function.code.any fun instr =>
    instr.opcode == .allocArray && decide (instr.defined = some (.var array))

/-- Where a jump goes. -/
def target? (function : Function) (label : Option String) : Option (List Instr) :=
  label.bind fun name => afterLabel name function.code

end Function

/-- What a run depends on besides the program. -/
structure Env extends Setting where
  /-- the contents of a frame when it is entered -/
  fresh : List Event → Locals
  /-- what comes back from a function that returns nothing -/
  stray : List Event → Word
  /-- the result of a function that the program does not define, and what it leaves in globals -/
  external : List Event → String → List (Nat × Word) → Globals → Option Word × Globals

/-- Frames start with zeros, and functions outside the program give zero. -/
def zeroEnv : Env where
  floats := .binary64
  label _ := 0
  fresh _ := ⟨fun _ => 0, fun _ _ => 0, [], []⟩
  stray _ := 0
  external _ _ _ globals := (some 0, globals)

/-- A function that has been entered and not yet left. -/
structure Activation where
  function : Function
  rest : List Instr
  locals : Locals

/-- An activation that waits for a call. -/
structure Caller where
  activation : Activation
  dest : Option Operand

inductive Config where
  | running (current : Activation) (callers : List Caller) (globals : Globals)
      (trace : List Event)
  | halted (value : Option Word) (globals : Globals) (trace : List Event)
  /-- a jump had nowhere to go -/
  | stuck (trace : List Event)

namespace Function

/-- The frame of a call: parameters hold the arguments of their positions. -/
def frame (env : Env) (function : Function) (trace : List Event)
    (arguments : List (Nat × Word)) : Locals where
  places place :=
    ((function.position? place).bind fun position => arguments.lookup position).getD
      ((env.fresh trace).places place)
  arrays := (env.fresh trace).arrays

/-- The activation at the start of a function. -/
def enter (env : Env) (function : Function) (trace : List Event)
    (arguments : List (Nat × Word)) : Activation :=
  ⟨function, function.code, function.frame env trace arguments⟩

end Function

namespace Config

def trace : Config → List Event
  | running _ _ _ trace => trace
  | halted _ _ trace => trace
  | stuck trace => trace

def isRunning : Config → Bool
  | running _ _ _ _ => true
  | _ => false

def isHalted : Config → Bool
  | halted _ _ _ => true
  | _ => false

/-- Go on behind a call, with its result. -/
def resume (env : Env) (waiting : Caller) (callers : List Caller) (value : Option Word)
    (globals : Globals) (trace : List Event) : Config :=
  match waiting.dest with
  | none => running waiting.activation callers globals trace
  | some dest =>
    let setting := env.toSetting
    let owns := waiting.activation.function.owns
    let state : State := ⟨waiting.activation.locals, globals⟩
    let value := value.getD (env.stray trace)
    let written := dest.assign setting owns state value
    running { waiting.activation with locals := written.locals } callers written.globals
      (trace ++ dest.stored setting owns state value)

/-- Enter a function, or have a function outside the program done. -/
def invoke (env : Env) (program : Program) (callee : String) (waiting : Caller)
    (callers : List Caller) (arguments : List (Nat × Word)) (globals : Globals)
    (trace : List Event) : Config :=
  match program.function? callee with
  | some function => running (function.enter env trace arguments) (waiting :: callers) globals trace
  | none =>
    let (value, globals) := env.external trace callee arguments globals
    resume env waiting callers value globals trace

/-- Leave the current function. -/
def leave (env : Env) (callers : List Caller) (value : Option Word) (globals : Globals)
    (trace : List Event) : Config :=
  match callers with
  | [] => halted value globals (trace ++ [.ret value])
  | waiting :: callers => resume env waiting callers value globals (trace ++ [.ret value])

/-- Carry out an effect of the current activation. -/
def perform (env : Env) (program : Program) (current : Activation) (rest : List Instr)
    (callers : List Caller) (globals : Globals) (trace : List Event) : Effect → Config
  | .next state events =>
    running { current with rest, locals := state.locals } callers state.globals (trace ++ events)
  | .jump label =>
    match current.function.target? label with
    | some rest => running { current with rest } callers globals trace
    | none => stuck trace
  | .call none _ => stuck trace
  | .call (some callee) dest =>
    let arguments := current.locals.pending
    let waiting := { current with rest, locals := { current.locals with pending := [] } }
    invoke env program callee ⟨waiting, dest⟩ callers arguments globals
      (trace ++ [.call callee arguments])
  | .leave value => leave env callers value globals trace

/-- One step; code that has come to its end leaves the function. -/
def step (env : Env) (program : Program) : Config → Config
  | running current callers globals trace =>
    match current.rest with
    | [] => leave env callers none globals trace
    | instr :: rest =>
      perform env program current rest callers globals trace
        (instr.effect env.toSetting current.function.owns ⟨current.locals, globals⟩)
  | halted value globals trace => halted value globals trace
  | stuck trace => stuck trace

/-- A number of steps. -/
def run (env : Env) (program : Program) : Nat → Config → Config
  | 0, config => config
  | count + 1, config => run env program count (step env program config)

theorem run_add (env : Env) (program : Program) (first second : Nat) (config : Config) :
    run env program (first + second) config =
      run env program second (run env program first config) := by
  induction first generalizing config with
  | zero => rw [Nat.zero_add, run]
  | succ first ih => rw [Nat.succ_add, run, ih, run]

end Config

namespace Program

/-- The program at the start of a function without arguments, with zeros in its globals. -/
def start (env : Env) (program : Program) (name : String) : Config :=
  match program.function? name with
  | some function => .running (function.enter env [] []) [] .zero []
  | none => .stuck []

end Program

end Ir

end ArmBackend
