import ArmBackend.Proofs.Ir.Matching

/-!
# Plans

What an instruction does, told apart from the state that it does it to.  Two instructions
with the same plan change two states in the same way, and go on in the same way.
-/

namespace ArmBackend.Ir

/-- A change of a state. -/
inductive Change where
  | none
  | set (place : Location) (value : Word)
  | setElement (own : Bool) (array : String) (index value : Word)
  | pend (argument : Nat × Word)

def Change.apply (state : State) : Change → State
  | none => state
  | set place value => state.set place value
  | setElement own array index value => state.setElement own array index value
  | pend argument =>
    { state with locals := { state.locals with pending := state.locals.pending ++ [argument] } }

inductive Plan where
  | next (change : Change) (events : List Event)
  | jump (target : Option String)
  | call (callee : Option String) (dest : Option Operand)
  | leave (value : Option Word)

/-- Carry out a plan. -/
def Plan.effect (state : State) : Plan → Effect
  | next change events => .next (change.apply state) events
  | jump target => .jump target
  | call callee dest => .call callee dest
  | leave value => .leave value

/-- The change that gives the operand a value. -/
def Operand.change (setting : Setting) (owns : String → Bool) (state : State) (value : Word) :
    Operand → Change
  | element array index _ =>
    if index.type.isFloat then .none
    else .setElement (owns array) array (index.value setting owns state) value
  | dest =>
    match dest.location? with
    | some place => .set place value
    | none => .none

variable (setting : Setting)

theorem Operand.apply_change (owns : String → Bool) (state : State)
    (value : Word) (dest : Operand) :
    (dest.change setting owns state value).apply state =
      dest.assign setting owns state value := by
  cases dest with
  | element array index type =>
    rw [change, assign]
    split <;> rfl
  | _ => rfl

/-- The operations on the stack of words, which lowered code does not have. -/
def Opcode.usesStack : Opcode → Bool
  | .push | .pop => true
  | _ => false

namespace Instr

section

variable (setting : Setting) (owns : String → Bool) (state : State) (instr : Instr)

/-- The plan to give a value to the destination, if there is one. -/
def givePlan (value : Word) : Plan :=
  match instr.dest with
  | some dest => .next (dest.change setting owns state value) (dest.stored setting owns state value)
  | none => .next .none []

def plan : Plan :=
  match instr.opcode with
  | .label | .enter | .nop | .allocArray | .push | .pop => .next .none []
  | .jump => .jump instr.label
  | .jumpIfTrue =>
    if instr.first setting owns state = 0 then .next .none [] else .jump instr.label
  | .jumpIfFalse =>
    if instr.first setting owns state = 0 then .jump instr.label else .next .none []
  | .call => .call instr.label instr.dest
  | .ret => .leave (instr.src1.map (Operand.value setting owns state))
  | .exit => .leave none
  | .arg => .next (.pend (instr.position, instr.first setting owns state)) []
  | .print => .next .none [instr.printed setting owns state false]
  | .println => .next .none [instr.printed setting owns state true]
  | _ => instr.givePlan setting owns state (instr.result setting owns state)

theorem plan_of_givesValue {instr : Instr} (gives : instr.opcode.givesValue = true) :
    instr.plan setting owns state =
      instr.givePlan setting owns state (instr.result setting owns state) := by
  unfold plan
  cases opcode : instr.opcode <;> first | rfl | (rw [opcode] at gives; cases gives)

/-- An instruction does what it plans. -/
theorem effect_eq_plan {instr : Instr} (plain : instr.opcode.usesStack = false) :
    instr.effect setting owns state = (instr.plan setting owns state).effect state := by
  have gives : instr.give setting owns state (instr.result setting owns state) =
      (instr.givePlan setting owns state (instr.result setting owns state)).effect state := by
    unfold give givePlan
    cases instr.dest with
    | none => rfl
    | some dest =>
      simp only [Plan.effect]
      rw [Operand.apply_change]
  unfold effect plan
  cases opcode : instr.opcode <;>
    first
    | exact gives
    | rfl
    | (dsimp only; split <;> rfl)
    | (rw [opcode] at plain; cases plain)

end

/-- The type and the value that an operand is read with. -/
def reading (setting : Setting) (owns : String → Bool) (state : State) (operand : Operand) :
    DataType × Word :=
  (operand.type, operand.value setting owns state)

section

variable {setting : Setting} {owns owns' : String → Bool} {state state' : State}
  {instr other : Instr}

section

variable {source source' : Option Operand}
  (same : source'.map (reading setting owns' state') = source.map (reading setting owns state))
include same

theorem map_value_of_reading :
    source'.map (Operand.value setting owns' state') =
      source.map (Operand.value setting owns state) := by
  simpa [Function.comp_def, reading] using congrArg (Option.map Prod.snd) same

theorem map_type_of_reading : source'.map Operand.type = source.map Operand.type := by
  simpa [Function.comp_def, reading] using congrArg (Option.map Prod.fst) same

end

/-- An operand that is missing counts as an integer. -/
def typeOf (operand : Option Operand) : DataType :=
  (operand.map Operand.type).getD .int

theorem onFloats_eq (instr : Instr) :
    instr.onFloats = ((typeOf instr.src1).isFloat || (typeOf instr.src2).isFloat) := by
  unfold onFloats sources typeOf
  cases instr.src1 <;> cases instr.src2 <;> simp [DataType.isFloat]

/-- Instructions that read the same have the same plan. -/
theorem plan_congr (opcode : other.opcode = instr.opcode) (label : other.label = instr.label)
    (one : other.src1.map (reading setting owns' state') =
      instr.src1.map (reading setting owns state))
    (two : other.src2.map (reading setting owns' state') =
      instr.src2.map (reading setting owns state))
    (position : instr.opcode = .arg → other.position = instr.position)
    (dest : instr.opcode = .call → other.dest = instr.dest)
    (gives : instr.opcode.givesValue = true → ∀ value,
      other.givePlan setting owns' state' value = instr.givePlan setting owns state value) :
    other.plan setting owns' state' = instr.plan setting owns state := by
  have first : other.first setting owns' state' = instr.first setting owns state := by
    rw [Instr.first, Instr.first, map_value_of_reading one]
  have second : other.second setting owns' state' = instr.second setting owns state := by
    rw [Instr.second, Instr.second, map_value_of_reading two]
  have floats : other.onFloats = instr.onFloats := by
    rw [onFloats_eq, onFloats_eq, typeOf, typeOf, map_type_of_reading one,
      map_type_of_reading two]
    rfl
  have type : other.firstType = instr.firstType := by
    rw [firstType, firstType, map_type_of_reading one]
  have result : other.result setting owns' state' = instr.result setting owns state := by
    rw [Instr.result, Instr.result, opcode, first, second, floats, type]
  have printed (newline : Bool) : other.printed setting owns' state' newline =
      instr.printed setting owns state newline := by
    rw [Instr.printed, Instr.printed, first, type]
  cases value : instr.opcode.givesValue with
  | true =>
    rw [plan_of_givesValue setting owns' state' (opcode ▸ value),
      plan_of_givesValue setting owns state value, result, gives value]
  | false =>
    unfold plan
    rw [opcode]
    cases kind : instr.opcode <;> rw [kind] at value <;>
      first
      | exact absurd value (by decide)
      | rfl
      | simp only [label, dest kind]
      | simp only [first, position kind]
      | (simp only [label, printed, map_value_of_reading one]; done)
      | simp only [label, first]

end

end Instr

/-- The targets of a jump in two functions are related, or missing in both. -/
def TargetsMeet (rel : List Instr → List Instr → Prop) (first second : Option (List Instr)) :
    Prop :=
  match first, second with
  | some target, some target' => rel target target'
  | none, none => True
  | _, _ => False

theorem TargetsMeet.mono {rel rel' : List Instr → List Instr → Prop}
    {first second : Option (List Instr)} (meets : TargetsMeet rel first second)
    (weaker : ∀ {target target'}, rel target target' → rel' target target') :
    TargetsMeet rel' first second := by
  cases first <;> cases second
  · trivial
  · exact meets
  · exact meets
  · exact weaker meets

theorem TargetsMeet.map {rel : List Instr → List Instr → Prop} {first : Option (List Instr)}
    {change : List Instr → List Instr}
    (related : ∀ target, first = some target → rel target (change target)) :
    TargetsMeet rel first (first.map change) := by
  cases first with
  | none => trivial
  | some target => exact related target rfl

theorem Operand.get_assign (owns : String → Bool) (state : State)
    (value : Word) (dest : Operand) (place : Location) :
    (dest.assign setting owns state value).get place =
      if dest.location? = some place then value else state.get place := by
  cases dest with
  | element array index type =>
    rw [assign]
    split
    · rfl
    · exact State.get_setElement ..
  | label name type | immediate literal type => rfl
  | temp name type | var name type | param name type | global name type =>
    rw [assign_of_location? rfl, State.get_set]
    simp only [location?, Option.some.injEq, eq_comm]

/-- What the effect of an instruction says of the instruction, and of the state in front of it. -/
def Instr.Accords (state : State) (instr : Instr) : Effect → Prop
  | .next next _ => ∀ place, instr.defined ≠ some place → next.get place = state.get place
  | .jump label => instr.opcode.isBranch = true ∧ instr.label = label
  | .call _ dest => instr.opcode = .call ∧ instr.dest = dest
  | .leave _ => True

theorem Instr.accords_effect (owns : String → Bool) (state : State)
    (instr : Instr) : instr.Accords state (instr.effect setting owns state) := by
  have gives {before : State} (value : Word) (same : ∀ place, before.get place = state.get place) :
      instr.Accords state (instr.give setting owns before value) := by
    unfold give
    cases written : instr.dest with
    | none => exact fun place _ => same place
    | some dest =>
      intro place other
      rw [defined, written] at other
      exact (Operand.get_assign ..).trans ((if_neg other).trans (same place))
  unfold effect
  cases opcode : instr.opcode
  case jump => exact ⟨by rw [opcode]; rfl, rfl⟩
  case jumpIfTrue | jumpIfFalse =>
    dsimp only
    split
    all_goals first | exact fun _ _ => rfl | exact ⟨by rw [opcode]; rfl, rfl⟩
  case call => exact ⟨opcode, rfl⟩
  case ret | exit => trivial
  case pop => exact gives _ fun place => by cases place <;> rfl
  case label | enter | nop | allocArray | arg | push | print | println =>
    exact fun place _ => by cases place <;> rfl
  all_goals exact gives _ fun _ => rfl

end ArmBackend.Ir
