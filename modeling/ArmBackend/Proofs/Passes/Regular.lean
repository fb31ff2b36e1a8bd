import ArmBackend.Ir.Pass.Folding
import ArmBackend.Proofs.Ir.Marks
import ArmBackend.Proofs.Passes.Plan
import Mathlib.Data.List.Forall2

/-!
# Regular code

What lowered code keeps to, and what the passes rely on without a check.  A temporary is
written once, and read behind that before the next label or branch.  A walk down the code
keeps book of what was written.

A strict walk also looks at types: a variable is read with the type that it was last
written with, in the order of the code, and operations have operands of kinds that fit
each other.
-/

namespace ArmBackend.Ir

open List Option

/-- Labels and branches, where straight code ends. -/
def Opcode.isBoundary : Opcode → Bool
  | .label => true
  | opcode => opcode.isBranch

/--
The types that places were last written with, and the temporaries written since the last
boundary.
-/
structure Scan where
  /-- types count -/
  strict : Prop
  types : Location → Option DataType
  ready : String → Prop

namespace Scan

/-- Nothing has been written yet. -/
def empty (strict : Prop) : Scan := ⟨strict, fun _ => none, fun _ => False⟩

/-- Behind the writing of an operand. -/
def write (scan : Scan) (operand : Operand) : Scan where
  strict := scan.strict
  types place := if operand.location? = some place then some operand.type else scan.types place
  ready name := operand.location? = some (.temp name) ∨ scan.ready name

/-- Behind a boundary. -/
def cut (scan : Scan) : Scan :=
  { scan with ready := fun _ => False }

end Scan

/-- The place of the operand was last written with its type, if it was written. -/
def Operand.Agrees (scan : Scan) (operand : Operand) : Prop :=
  ∀ place ∈ operand.location?, ∀ type ∈ scan.types place, type = operand.type

/-- The operand may be read. -/
def Operand.Regular (scan : Scan) : Operand → Prop
  | temp name type => scan.ready name ∧ scan.types (.temp name) = some type
  | immediate value type => scan.strict → value.isFloat = type.isFloat
  | element _ index _ => index.Regular scan
  | operand => scan.strict → operand.Agrees scan

/-- A variable, a parameter or a global. -/
def Operand.isVariable : Operand → Bool
  | var _ _ | param _ _ | global _ _ => true
  | _ => false

namespace Opcode

/-- Operations that do nothing but give a value. -/
def computes : Opcode → Bool
  | .loadImm | .load | .loadAddr | .arrayLoad => true
  | opcode => opcode.isPure

/-- Operations of control and output, which have no destination. -/
def givesNothing : Opcode → Bool
  | .label | .jump | .jumpIfTrue | .jumpIfFalse | .ret | .enter | .exit | .print | .println => true
  | _ => false

/-- The types of destination and sources fit each other. -/
def accepts (dest first second : DataType) : Opcode → Bool
  | .loadImm | .load | .store => decide (first = dest)
  | .move | .neg => first.isFloat == dest.isFloat
  | .not => !first.isFloat && !dest.isFloat
  | .intToFloat => !first.isFloat && dest.isFloat
  | .floatToInt => first.isFloat && !dest.isFloat
  | .add | .sub | .mul | .div | .mod =>
    first.isFloat == dest.isFloat && second.isFloat == dest.isFloat
  | .eq | .ne | .lt | .le | .gt | .ge => first.isFloat == second.isFloat && !dest.isFloat
  | .and | .or => !dest.isFloat
  | _ => true

end Opcode

namespace Instr

/-- The operands that are read for their value, with the element that a store names. -/
def inputs (instr : Instr) : List Operand :=
  instr.sources ++ if instr.opcode = .arrayStore then instr.dest.toList else []

/-- The operand that the instruction writes as a whole. -/
def written? (instr : Instr) : Option Operand :=
  if instr.opcode.computes || instr.opcode = .store || instr.opcode = .call then instr.dest
  else none

/-- The types of the operands fit each other. -/
def isTyped (instr : Instr) : Bool :=
  instr.opcode.accepts (typeOf instr.dest) (typeOf instr.src1) (typeOf instr.src2)

/-- The temporary has not been written. -/
def Fresh (scan : Scan) (operand : Operand) : Prop :=
  ∃ name type, operand = .temp name type ∧ scan.types (.temp name) = none

/-- The forms of instructions, by what they write. -/
inductive Formed (scan : Scan) (instr : Instr) : Prop where
  | computes (dest : Operand) (opcode : instr.opcode.computes = true)
      (written : instr.dest = some dest) (fresh : Fresh scan dest)
  | stores (place : Operand) (opcode : instr.opcode = .store) (written : instr.dest = some place)
      (named : place.isVariable = true)
  | fills (array : String) (index : Operand) (type : DataType)
      (opcode : instr.opcode = .arrayStore)
      (written : instr.dest = some (.element array index type))
  | reserves (array : String) (type : DataType) (opcode : instr.opcode = .allocArray)
      (written : instr.dest = some (.var array type))
  | calls (opcode : instr.opcode = .call) (fresh : ∀ dest ∈ instr.dest, Fresh scan dest)
  | passes (opcode : instr.opcode = .arg) (written : instr.dest = none)
      (position : instr.immediate2?.isSome = true)
  | plain (opcode : instr.opcode.givesNothing = true) (written : instr.dest = none)
      (named : instr.opcode.isBoundary = true → instr.label.isSome = true)

/-- The instruction may stand behind what was scanned. -/
structure Regular (scan : Scan) (instr : Instr) : Prop where
  formed : instr.Formed scan
  inputs : ∀ operand ∈ instr.inputs, operand.Regular scan
  typed : scan.strict → instr.isTyped = true

end Instr

/-- What has been written behind an instruction. -/
def Scan.after (scan : Scan) (instr : Instr) : Scan :=
  if instr.opcode.isBoundary then scan.cut
  else
    match instr.written? with
    | some operand => scan.write operand
    | none => scan

/-- Each instruction may stand where it does. -/
def Regular (scan : Scan) : List Instr → Prop
  | [] => True
  | instr :: rest => instr.Regular scan ∧ Regular (scan.after instr) rest

/-- What has been written behind code. -/
def Scan.run (scan : Scan) (code : List Instr) : Scan :=
  code.foldl Scan.after scan

variable {change : Change} {value : Immediate} {instr : Instr} {events : List Event}
  {place : Location} {opcode : Opcode} {operand source : Operand} {scan : Scan} {setting : Setting}
  {state : State} {name : String} {owns : String → Bool}

theorem regular_append {first second : List Instr} :
    Regular scan (first ++ second) ↔ Regular scan first ∧ Regular (scan.run first) second := by
  induction first generalizing scan with
  | nil => exact (iff_of_eq (true_and _)).symm
  | cons instr rest ih => rw [cons_append, Regular, Regular, ih, and_assoc]; rfl

theorem Scan.strict_after (scan : Scan) (instr : Instr) :
    (scan.after instr).strict = scan.strict := by
  unfold after
  split
  · rfl
  · cases instr.written? <;> rfl

theorem Regular.of_mem {code : List Instr} (regular : Regular scan code) :
    ∀ instr ∈ code, ∃ scan', instr.Regular scan' := by
  induction code generalizing scan with
  | nil => exact fun instr member => by cases member
  | cons instr rest ih => exact forall_mem_cons.mpr ⟨⟨scan, regular.1⟩, ih regular.2⟩

theorem Regular.afterLabel {code target : List Instr} (regular : Regular scan code)
    (found : afterLabel name code = some target) :
    ∃ scan', Regular scan' target ∧ (∀ temp, ¬ scan'.ready temp) ∧ scan'.strict = scan.strict := by
  induction code generalizing scan with
  | nil => cases found
  | cons instr rest ih =>
    rw [Ir.afterLabel] at found
    split at found
    · next marks =>
        cases found
        have label := Instr.opcode_of_marks marks
        refine ⟨scan.after instr, regular.2, ?_, Scan.strict_after scan instr⟩
        intro temp ready
        rw [Scan.after, if_pos (by rw [label]; rfl)] at ready
        exact ready
    · obtain ⟨later, there, unready, same⟩ := ih regular.2 found
      exact ⟨later, there, unready, same.trans (Scan.strict_after scan instr)⟩

theorem Opcode.computes_of_isBinary (isBinary : opcode.isBinary = true) :
    opcode.computes = true := by
  cases opcode <;> first | rfl | cases isBinary

theorem Opcode.givesValue_of_computes (computes : opcode.computes = true) :
    opcode.givesValue = true := by
  cases opcode <;> first | rfl | cases computes

theorem Opcode.computes_of_isPure (isPure : opcode.isPure = true) : opcode.computes = true := by
  cases opcode <;> first | rfl | cases isPure

theorem Opcode.ne_of_computes {other : Opcode} (computes : opcode.computes = true)
    (idle : other.computes = false) : opcode ≠ other := by
  rintro rfl
  rw [computes] at idle
  cases idle

theorem Opcode.not_isBoundary_of_computes (computes : opcode.computes = true) :
    opcode.isBoundary = false := by
  cases opcode <;> first | rfl | cases computes

theorem Opcode.not_givesNothing_of_computes (computes : opcode.computes = true) :
    opcode.givesNothing = false := by
  cases opcode <;> first | rfl | cases computes

namespace Instr

variable {scan : Scan} {instr : Instr}

section

variable (formed : instr.Formed scan)
include formed

/-- Regular code does not use the stack of words. -/
theorem Formed.usesStack : instr.opcode.usesStack = false := by
  cases formed with
  | computes _ opcode | plain opcode => revert opcode; cases instr.opcode <;> decide
  | stores _ opcode | fills _ _ _ opcode | reserves _ _ opcode | calls opcode | passes opcode =>
    rw [opcode]; rfl

/-- Only temporaries that are written must be new. -/
theorem Formed.mono {other : Scan}
    (fresh : ∀ {dest : Operand}, Fresh scan dest → Fresh other dest) : instr.Formed other := by
  cases formed with
  | computes dest opcode written unwritten => exact .computes dest opcode written (fresh unwritten)
  | stores place opcode written named => exact .stores place opcode written named
  | fills array index type opcode written => exact .fills array index type opcode written
  | reserves array type opcode written => exact .reserves array type opcode written
  | calls opcode unwritten => exact .calls opcode fun dest member => fresh (unwritten dest member)
  | passes opcode written position => exact .passes opcode written position
  | plain opcode written named => exact .plain opcode written named

/-- What is computed goes to a new temporary. -/
theorem Formed.of_computes (computes : instr.opcode.computes = true) :
    ∃ dest, instr.dest = some dest ∧ Fresh scan dest := by
  cases formed with
  | computes dest _ written fresh => exact ⟨dest, written, fresh⟩
  | plain opcode => rw [Opcode.not_givesNothing_of_computes computes] at opcode; cases opcode
  | stores _ opcode | fills _ _ _ opcode | reserves _ _ opcode | calls opcode | passes opcode =>
    rw [opcode] at computes; cases computes

/-- The result of a call goes to a new temporary. -/
theorem Formed.of_call (call : instr.opcode = .call) : ∀ dest ∈ instr.dest, Fresh scan dest := by
  cases formed with
  | calls _ fresh => exact fresh
  | computes _ opcode | stores _ opcode | fills _ _ _ opcode | reserves _ _ opcode | passes opcode
  | plain opcode => rw [call] at opcode; cases opcode

/-- The position of an argument is a literal. -/
theorem Formed.position_of_arg (arg : instr.opcode = .arg) : instr.immediate2?.isSome = true := by
  cases formed with
  | passes _ _ position => exact position
  | computes _ opcode | stores _ opcode | fills _ _ _ opcode | reserves _ _ opcode | calls opcode
  | plain opcode => rw [arg] at opcode; cases opcode

end

theorem Fresh.isTemp (fresh : Fresh scan operand) : operand.isTemp = true := by
  obtain ⟨name, type, rfl, _⟩ := fresh
  rfl

theorem src1_of_immediate1? (literal : instr.immediate1? = some value) :
    ∃ type, instr.src1 = some (.immediate value type) := by
  unfold immediate1? at literal
  cases source : instr.src1 with
  | none => rw [source] at literal; cases literal
  | some operand =>
    rw [source] at literal
    cases operand <;> cases literal
    exact ⟨_, rfl⟩

theorem src2_of_immediate2? (literal : instr.immediate2? = some value) :
    ∃ type, instr.src2 = some (.immediate value type) := by
  unfold immediate2? at literal
  cases source : instr.src2 with
  | none => rw [source] at literal; cases literal
  | some operand =>
    rw [source] at literal
    cases operand <;> cases literal
    exact ⟨_, rfl⟩

theorem mem_sources_of_src1 (read : instr.src1 = some source) : source ∈ instr.sources := by
  simp [sources, read]

theorem mem_sources_of_src2 (read : instr.src2 = some source) : source ∈ instr.sources := by
  simp [sources, read]

theorem inputs_subset (instr : Instr) : instr.inputs ⊆ instr.operands := by
  refine append_subset.mpr ⟨subset_append_right _ _, ?_⟩
  split
  · exact subset_append_left _ _
  · exact nil_subset _

theorem mem_inputs_of_src1 (read : instr.src1 = some source) : source ∈ instr.inputs :=
  mem_append_left _ (mem_sources_of_src1 read)

theorem mem_inputs_of_src2 (read : instr.src2 = some source) : source ∈ instr.inputs :=
  mem_append_left _ (mem_sources_of_src2 read)

theorem written?_eq_none
    (idle : (instr.opcode.computes || instr.opcode = .store || instr.opcode = .call) = false) :
    instr.written? = none := by
  rw [written?, idle]
  rfl

theorem written?_of_isBoundary (boundary : instr.opcode.isBoundary = true) :
    instr.written? = none := by
  refine written?_eq_none ?_
  revert boundary
  cases instr.opcode <;> decide

theorem written?_of_computes (computes : instr.opcode.computes = true) :
    instr.written? = instr.dest := by
  simp [written?, computes]

theorem written?_of_store (store : instr.opcode = .store) : instr.written? = instr.dest := by
  simp [written?, store]

theorem written?_of_call (call : instr.opcode = .call) : instr.written? = instr.dest := by
  simp [written?, call]

end Instr

namespace Instr

variable {scan : Scan} {instr : Instr} {setting : Setting} {owns : String → Bool} {state : State}

theorem Fresh.location? (fresh : Fresh scan operand) :
    ∃ name, operand.location? = some (.temp name) ∧ scan.types (.temp name) = none := by
  obtain ⟨name, type, rfl, unwritten⟩ := fresh
  exact ⟨name, rfl, unwritten⟩

end Instr

theorem Operand.exists_location?_of_isVariable (named : operand.isVariable = true) :
    ∃ place, operand.location? = some place ∧ ∀ name, place ≠ .temp name := by
  cases operand with
  | var name type => exact ⟨.var name, rfl, by intro other; exact Location.noConfusion⟩
  | param name type => exact ⟨.param name, rfl, by intro other; exact Location.noConfusion⟩
  | global name type => exact ⟨.global name, rfl, by intro other; exact Location.noConfusion⟩
  | _ => cases named

theorem Operand.change_of_location? (named : operand.location? = some place) (setting : Setting)
    (owns : String → Bool) (state : State) (value : Word) :
    operand.change setting owns state value = .set place value := by
  cases operand <;> cases named <;> rfl

namespace Scan

variable {scan : Scan} {instr : Instr}

/-- Only what an instruction writes gets a new type. -/
theorem types_after (scan : Scan) (instr : Instr) (place : Location) :
    (scan.after instr).types place =
      if instr.written?.bind Operand.location? = some place then some (Instr.typeOf instr.written?)
      else scan.types place := by
  unfold after
  split
  · next boundary =>
      rw [Instr.written?_of_isBoundary boundary]
      rfl
  · cases instr.written? with
    | none => rfl
    | some operand => rfl

theorem ready_after (straight : instr.opcode.isBoundary = false) (name : String) :
    (scan.after instr).ready name ↔
      instr.written?.bind Operand.location? = some (.temp name) ∨ scan.ready name := by
  rw [after, if_neg (Bool.eq_false_iff.mp straight)]
  cases instr.written? with
  | none => simp
  | some operand => rfl

theorem types_after_eq_none {place : Location} :
    (scan.after instr).types place = none ↔
      instr.written?.bind Operand.location? ≠ some place ∧ scan.types place = none := by
  rw [types_after]
  split
  · next written =>
      exact iff_of_false (some_ne_none _) fun unwritten => unwritten.1 written
  · next apart => exact ⟨fun unwritten => ⟨apart, unwritten⟩, And.right⟩

/-- A temporary that may be read was just written, or it could be read before. -/
theorem known_after {name : String} {type : DataType} (ready : (scan.after instr).ready name)
    (known : (scan.after instr).types (.temp name) = some type) :
    instr.opcode.isBoundary = false ∧
      (instr.written?.bind Operand.location? = some (.temp name) ∨
        instr.written?.bind Operand.location? ≠ some (.temp name) ∧
          scan.ready name ∧ scan.types (.temp name) = some type) := by
  have straight : instr.opcode.isBoundary = false := by
    refine Bool.eq_false_iff.mpr fun boundary => ?_
    rw [after, if_pos boundary] at ready
    exact ready
  refine ⟨straight, ?_⟩
  by_cases new : instr.written?.bind Operand.location? = some (.temp name)
  · exact .inl new
  · rw [types_after, if_neg new] at known
    exact .inr ⟨new, ((ready_after straight name).mp ready).resolve_left new, known⟩

end Scan

namespace Instr

variable {scan : Scan} {instr : Instr} {setting : Setting} {owns : String → Bool} {state : State}

theorem get_apply_of_givesNothing (opcode : instr.opcode.givesNothing = true)
    (planned : instr.plan setting owns state = .next change events) (other : State)
    (place : Location) : (change.apply other).get place = other.get place := by
  have idle : change = .none := by
    unfold plan at planned
    cases kind : instr.opcode <;> rw [kind] at planned opcode <;>
      first
      | exact absurd opcode (by decide)
      | (cases planned; rfl)
      | cases planned
      | (dsimp only at planned; split at planned <;> cases planned; rfl)
  rw [idle]
  rfl

theorem Formed.get_apply (formed : instr.Formed scan)
    (planned : instr.plan setting owns state = .next change events) (other : State)
    (place : Location) :
    (change.apply other).get place =
      if instr.written?.bind Operand.location? = some place then instr.result setting owns state
      else other.get place := by
  have whole {dest : Operand} {spot : Location} (gives : instr.opcode.givesValue = true)
      (written : instr.dest = some dest) (named : dest.location? = some spot)
      (all : instr.written? = instr.dest) : (change.apply other).get place =
      if instr.written?.bind Operand.location? = some place then instr.result setting owns state
      else other.get place := by
    rw [plan_of_givesValue setting owns state gives, givePlan, written] at planned
    dsimp only at planned
    rw [Operand.change_of_location? named] at planned
    cases planned
    rw [all, written, bind_some, named, Change.apply, State.get_set]
    simp only [Option.some.injEq, eq_comm]
  cases formed with
  | computes dest opcode written fresh =>
    obtain ⟨name, named, _⟩ := fresh.location?
    exact whole (Opcode.givesValue_of_computes opcode) written named (written?_of_computes opcode)
  | stores dest opcode written named =>
    obtain ⟨spot, named, _⟩ := Operand.exists_location?_of_isVariable named
    exact whole (by rw [opcode]; rfl) written named (written?_of_store opcode)
  | fills array index type opcode written =>
    rw [plan_of_givesValue setting owns state (by rw [opcode]; rfl), givePlan, written] at planned
    rw [written?_eq_none (by rw [opcode]; decide)]
    dsimp only [Operand.change] at planned
    split at planned
    · cases planned
      rfl
    · cases planned
      exact State.get_setElement ..
  | reserves array type opcode written =>
    rw [plan, opcode] at planned
    cases planned
    rw [written?_eq_none (by rw [opcode]; decide)]
    rfl
  | calls opcode =>
    rw [plan, opcode] at planned
    cases planned
  | passes opcode written =>
    rw [plan, opcode] at planned
    cases planned
    rw [written?_eq_none (by rw [opcode]; decide)]
    cases place <;> rfl
  | plain opcode written =>
    have none : instr.written? = none := by
      rw [written?, written, ite_self]
    rw [none, get_apply_of_givesNothing opcode planned]
    rfl

end Instr

theorem Instr.Formed.givePlan_congr {other : Instr} (formed : instr.Formed scan)
    (gives : instr.opcode.givesValue = true) {owns' : String → Bool} {state' : State}
    (whole : instr.opcode ≠ .arrayStore → other.dest = instr.dest)
    (part : ∀ array index type, instr.opcode = .arrayStore →
      instr.dest = some (.element array index type) →
      ∃ index', other.dest = some (.element array index' type) ∧ owns' array = owns array ∧
        reading setting owns' state' index' = reading setting owns state index) (value : Word) :
    other.givePlan setting owns' state' value = instr.givePlan setting owns state value := by
  have same {dest : Operand} {place : Location} (written : instr.dest = some dest)
      (named : dest.location? = some place) (kind : instr.opcode ≠ .arrayStore) :
      other.givePlan setting owns' state' value = instr.givePlan setting owns state value := by
    rw [givePlan, givePlan, whole kind, written]
    cases dest <;> cases named <;> rfl
  cases formed with
  | computes dest opcode written fresh =>
    obtain ⟨name, named, _⟩ := fresh.location?
    exact same written named (Opcode.ne_of_computes opcode rfl)
  | stores place opcode written named =>
    obtain ⟨spot, named, _⟩ := Operand.exists_location?_of_isVariable named
    exact same written named (by rw [opcode]; decide)
  | fills array index type opcode written =>
    obtain ⟨index', written', own, read⟩ := part array index type opcode written
    obtain ⟨type', value'⟩ := Prod.mk.inj read
    rw [givePlan, givePlan, written, written']
    simp only [Operand.change, Operand.stored, type', value', own]
  | plain opcode => revert opcode gives; cases instr.opcode <;> simp [Opcode.givesNothing,
      Opcode.givesValue]
  | reserves _ _ opcode | calls opcode | passes opcode => rw [opcode] at gives; cases gives

/-- What is written is new, or it is a variable that is stored. -/
theorem Instr.Formed.new_or_stored (formed : instr.Formed scan)
    (written : instr.written?.bind Operand.location? = some place) :
    scan.types place = none ∨
      instr.opcode = .store ∧ instr.defined = some place ∧ ∀ name, place ≠ .temp name := by
  have new {dest : Operand} (fresh : Fresh scan dest) (named : dest.location? = some place) :
      scan.types place = none := by
    obtain ⟨name, same, unwritten⟩ := fresh.location?
    cases same.symm.trans named
    exact unwritten
  cases formed with
  | computes dest opcode whole fresh =>
    rw [written?_of_computes opcode, whole] at written
    exact .inl (new fresh written)
  | calls opcode fresh =>
    rw [written?_of_call opcode] at written
    obtain ⟨dest, whole, named⟩ := bind_eq_some_iff.mp written
    exact .inl (new (fresh dest whole) named)
  | stores dest opcode whole named =>
    rw [written?_of_store opcode] at written
    obtain ⟨spot, named, apart⟩ := Operand.exists_location?_of_isVariable named
    rw [whole] at written
    cases named.symm.trans written
    exact .inr ⟨opcode, by rw [defined, whole]; exact named, apart⟩
  | fills _ _ _ opcode | reserves _ _ opcode | passes opcode =>
    rw [written?_eq_none (by rw [opcode]; decide)] at written
    cases written
  | plain opcode whole =>
    rw [written?, whole, ite_self] at written
    cases written

theorem Instr.Formed.fresh_of_written? (formed : instr.Formed scan)
    (written : instr.written?.bind Operand.location? = some (.temp name)) :
    scan.types (.temp name) = none := by
  rcases formed.new_or_stored written with new | ⟨_, _, apart⟩
  · exact new
  · exact absurd rfl (apart name)

/-- A temporary or a literal. -/
def Operand.isFixed (operand : Operand) : Bool :=
  operand.isTemp || operand.isImmediate

theorem Operand.Regular.type_eq (regular : operand.Regular scan) (strict : scan.strict)
    (named : operand.location? = some place) {type : DataType}
    (written : scan.types place = some type) : type = operand.type := by
  cases operand with
  | temp name own =>
    cases named
    exact Option.some.inj (written.symm.trans regular.2)
  | var name own | param name own | global name own =>
    exact regular strict place named type written
  | _ => cases named

theorem Operand.Regular.after (regular : operand.Regular scan) (fixed : operand.isFixed = true)
    (formed : instr.Formed scan) (straight : instr.opcode.isBoundary = false) :
    operand.Regular (scan.after instr) := by
  cases operand with
  | temp name type =>
    refine ⟨(Scan.ready_after straight name).mpr (.inr regular.1), ?_⟩
    rw [Scan.types_after, if_neg]
    · exact regular.2
    · intro written
      have fresh := formed.fresh_of_written? written
      rw [regular.2] at fresh
      cases fresh
  | immediate value type => exact fun strict => regular (Scan.strict_after scan instr ▸ strict)
  | _ => cases fixed

/--
Two instructions of the right form with the same plan meet, if the relation holds wherever they may
lead.
-/
theorem Meets.of_formed {function other : Function} {rel : Point → Point → Prop}
    {instr' : Instr} {rest rest' : List Instr} {state' : State} {scan' : Scan}
    (formed : instr.Formed scan) (formed' : instr'.Formed scan')
    (same : instr'.plan setting other.owns state' = instr.plan setting function.owns state)
    (pending : state'.locals.pending = state.locals.pending)
    (globals : state'.globals = state.globals)
    (next : ∀ change events, instr.plan setting function.owns state = .next change events →
      rel ⟨rest, change.apply state⟩ ⟨rest', change.apply state'⟩)
    (jump : ∀ name ∈ instr.target?,
      TargetsMeet (fun target target' => rel ⟨target, state⟩ ⟨target', state'⟩)
        (afterLabel name function.code) (afterLabel name other.code))
    (call : instr.opcode = .call → ∀ globals value,
      rel ⟨rest, (state.back globals).returned instr.dest value⟩
        ⟨rest', (state'.back globals).returned instr.dest value⟩) :
    Meets setting function other rel ⟨instr :: rest, state⟩ ⟨instr' :: rest', state'⟩ := by
  have accords := instr.accords_effect setting function.owns state
  rw [Instr.effect_eq_plan setting _ _ formed.usesStack] at accords
  unfold Meets
  simp only [Function.move, Instr.effect_eq_plan setting _ _ formed.usesStack,
    Instr.effect_eq_plan setting _ _ formed'.usesStack, same]
  cases planned : instr.plan setting function.owns state with
  | next inner events => exact ⟨rfl, next inner events planned⟩
  | jump label =>
    rw [planned] at accords
    obtain ⟨branch, rfl⟩ := accords
    simp only [Plan.effect, Function.target?]
    cases named : instr.label with
    | none => trivial
    | some name =>
      have targets := jump name (by rw [Instr.target?, if_pos branch, named]; rfl)
      simp only [bind_some]
      unfold TargetsMeet at targets
      cases one : afterLabel name function.code <;> cases two : afterLabel name other.code <;>
        rw [one, two] at targets <;> first | exact targets.elim | exact ⟨rfl, targets⟩ | trivial
  | call callee dest =>
    rw [planned] at accords
    obtain ⟨isCall, rfl⟩ := accords
    cases callee with
    | none => trivial
    | some callee =>
      exact ⟨⟨rfl, rfl, fun operand member => (formed.of_call isCall operand member).isTemp⟩,
        pending, globals, call isCall⟩
  | leave value => exact ⟨rfl, globals⟩

/-- The labels that occur in an operand. -/
def Operand.labels : Operand → List String
  | label name _ => [name]
  | element _ index _ => index.labels
  | _ => []

/-- The labels that occur in the operands of an instruction. -/
def Instr.references (instr : Instr) : List String :=
  instr.operands.flatMap Operand.labels

def Operand.isElement : Operand → Bool
  | element _ _ _ => true
  | _ => false

/-- The index in the operand, if it has one, is not itself an element. -/
def Operand.isFlat : Operand → Bool
  | element _ index _ => !index.isElement
  | _ => true

/-- The number of sources that an operation must have. -/
def Opcode.takes : Opcode → Nat
  | .loadImm | .load | .loadAddr | .arrayLoad | .store | .arrayStore | .move | .neg | .not
  | .intToFloat | .floatToInt | .jumpIfTrue | .jumpIfFalse | .arg | .print | .println => 1
  | opcode => if opcode.isBinary then 2 else 0

/-- The instruction has its sources and, if it calls, a name to call, and its operands are flat. -/
structure Instr.Whole (instr : Instr) : Prop where
  first : 0 < instr.opcode.takes → instr.src1.isSome = true
  second : 1 < instr.opcode.takes → instr.src2.isSome = true
  callee : instr.opcode = .call → instr.label.isSome = true
  flat : ∀ operand ∈ instr.operands, operand.isFlat = true

/-- The second operand refers to nothing new, and is as flat as the first one. -/
structure Operand.Narrows (operand narrowed : Operand) : Prop where
  labels : narrowed.labels ⊆ operand.labels
  flat : operand.isFlat = true → narrowed.isFlat = true

theorem Operand.Narrows.refl (operand : Operand) : operand.Narrows operand :=
  ⟨List.Subset.refl _, id⟩

/-- The second instruction refers to nothing new, and is as whole as the first one. -/
structure Instr.Narrows (instr narrowed : Instr) : Prop where
  references : narrowed.references ⊆ instr.references
  whole : instr.Whole → narrowed.Whole

namespace Instr.Narrows

variable {instr narrowed : Instr}

theorem refl (instr : Instr) : instr.Narrows instr :=
  ⟨List.Subset.refl _, id⟩

theorem trans {other : Instr} (one : instr.Narrows narrowed) (two : narrowed.Narrows other) :
    instr.Narrows other :=
  ⟨List.Subset.trans two.references one.references, fun whole => two.whole (one.whole whole)⟩

/-- Operands are replaced by narrower ones. -/
theorem of_map {change : Operand → Operand}
    (narrows : ∀ operand : Operand, operand.Narrows (change operand))
    (src1 : narrowed.src1 = instr.src1.map change) (src2 : narrowed.src2 = instr.src2.map change)
    (dest : narrowed.dest = instr.dest ∨ narrowed.dest = instr.dest.map change)
    (opcode : narrowed.opcode = instr.opcode) (label : narrowed.label = instr.label) :
    instr.Narrows narrowed := by
  have each {operand : Operand} (member : operand ∈ narrowed.operands) :
      ∃ source ∈ instr.operands, source.Narrows operand := by
    simp only [operands, sources, mem_append, mem_toList, src1, src2,
      map_eq_some_iff] at member ⊢
    rcases member with member | ⟨source, read, rfl⟩ | ⟨source, read, rfl⟩
    · rcases dest with same | changed
      · exact ⟨operand, .inl (same ▸ member), .refl operand⟩
      · obtain ⟨target, written, rfl⟩ := map_eq_some_iff.mp (changed ▸ member)
        exact ⟨target, .inl written, narrows target⟩
    · exact ⟨source, .inr (.inl read), narrows source⟩
    · exact ⟨source, .inr (.inr read), narrows source⟩
  constructor
  · intro name member
    obtain ⟨operand, inside, refers⟩ := mem_flatMap.mp member
    obtain ⟨source, there, narrower⟩ := each inside
    exact mem_flatMap.mpr ⟨source, there, narrower.labels refers⟩
  · intro whole
    refine ⟨?_, ?_, ?_, ?_⟩
    · rw [opcode, src1, isSome_map]
      exact whole.first
    · rw [opcode, src2, isSome_map]
      exact whole.second
    · rw [opcode, label]
      exact whole.callee
    · intro operand member
      obtain ⟨source, there, narrower⟩ := each member
      exact narrower.flat (whole.flat source there)

theorem loadImm {dest : Operand} (written : instr.dest = some dest) (value : Immediate)
    (comment : Option String) (line : Nat) :
    instr.Narrows { Instr.loadImm dest value with comment, line } := by
  have inside : dest ∈ instr.operands := by
    rw [operands, written]
    exact mem_cons_self ..
  constructor
  · intro name member
    obtain ⟨operand, listed, refers⟩ := mem_flatMap.mp member
    rcases mem_cons.mp listed with rfl | literal
    · exact mem_flatMap.mpr ⟨_, inside, refers⟩
    · cases mem_singleton.mp literal
      cases refers
  · refine fun whole => ⟨fun _ => rfl, fun two => absurd two (Nat.lt_irrefl 1), nofun, ?_⟩
    exact forall_mem_cons.mpr ⟨whole.flat dest inside, forall_mem_singleton.mpr rfl⟩

end Instr.Narrows

namespace Instr

variable {instr : Instr}

theorem not_dividesByZero (other : instr.opcode.divides = false) :
    instr.dividesByZero = false := by
  rw [dividesByZero, other]
  rfl

theorem divides_of_dividesByZero (divides : instr.dividesByZero = true) :
    instr.opcode.divides = true := by
  by_contra other
  rw [not_dividesByZero (Bool.eq_false_iff.mpr other)] at divides
  cases divides

/-- A division by zero has literals for sources, which a change of places leaves alone. -/
theorem map_of_dividesByZero (divides : instr.dividesByZero = true) {change : Operand → Operand}
    (literals : ∀ value type, change (.immediate value type) = .immediate value type) :
    instr.src1.map change = instr.src1 ∧ instr.src2.map change = instr.src2 := by
  simp only [dividesByZero, Bool.and_eq_true, isSome_iff_exists] at divides
  obtain ⟨⟨_, left, one⟩, zero⟩ := divides
  split at zero
  · next two =>
      obtain ⟨_, first⟩ := src1_of_immediate1? one
      obtain ⟨_, second⟩ := src2_of_immediate2? two
      rw [first, second, map_some, map_some, literals, literals]
      exact ⟨rfl, rfl⟩
  · cases zero

end Instr

/--
The same instruction, or another one that computes a value for the same destination.  It loads
from no place.  A division of literals by zero stays.
-/
inductive Instr.Recomputes (instr : Instr) : Instr → Prop where
  | same : Recomputes instr instr
  | other {other : Instr} (old : instr.opcode.computes = true)
      (new : other.opcode.computes = true) (dest : other.dest = instr.dest)
      (notLoad : other.opcode ≠ .load) (narrows : instr.Narrows other)
      (divides : instr.dividesByZero = false) : Recomputes instr other

namespace Instr.Recomputes

variable {instr other : Instr}

variable (recomputes : instr.Recomputes other)
include recomputes

theorem marks (name : String) : other.marks name = instr.marks name := by
  cases recomputes with
  | same => rfl
  | other old new dest =>
    have one := beq_false_of_ne (Opcode.ne_of_computes old (rfl : Opcode.label.computes = false))
    have two := beq_false_of_ne (Opcode.ne_of_computes new (rfl : Opcode.label.computes = false))
    rw [Instr.marks, Instr.marks, one, two]
    rfl

theorem after (scan : Scan) : scan.after other = scan.after instr := by
  cases recomputes with
  | same => rfl
  | other old new dest =>
    rw [Scan.after, Scan.after,
      if_neg (Bool.eq_false_iff.mp (Opcode.not_isBoundary_of_computes new)),
      if_neg (Bool.eq_false_iff.mp (Opcode.not_isBoundary_of_computes old)),
      Instr.written?_of_computes old,
      Instr.written?_of_computes new, dest]

theorem formed (formed : instr.Formed scan) : other.Formed scan := by
  cases recomputes with
  | same => exact formed
  | other old new same =>
    obtain ⟨dest, written, fresh⟩ := formed.of_computes old
    exact .computes dest new (same.trans written) fresh

end Instr.Recomputes

section

variable {code recomputed : List Instr} (all : Forall₂ Instr.Recomputes code recomputed)
include all

/-- The function has the same arrays. -/
theorem owns_of_recomputes {function other : Function} (old : function.code = code)
    (new : other.code = recomputed) : other.owns = function.owns := by
  funext array
  rw [Function.owns, Function.owns, old, new]
  clear old new
  induction all with
  | nil => rfl
  | cons first _ ih =>
    rw [any_cons, any_cons, ih]
    cases first with
    | same => rfl
    | other old new dest =>
      have one := beq_false_of_ne
        (Opcode.ne_of_computes old (rfl : Opcode.allocArray.computes = false))
      have two := beq_false_of_ne
        (Opcode.ne_of_computes new (rfl : Opcode.allocArray.computes = false))
      rw [one, two, Bool.false_and, Bool.false_and]

end

end ArmBackend.Ir
