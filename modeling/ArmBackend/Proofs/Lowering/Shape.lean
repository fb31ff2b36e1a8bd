import ArmBackend.Proofs.Ir.Marks
import ArmBackend.Proofs.Lowering.Names

/-!
# Shape of lowered code

The code of an expression has neither labels nor arrays of its own.  The labels in the
code of a statement are those that were issued for it, each once, and its arrays are
bound behind it.
-/

namespace ArmBackend.Ir

/-- Code without labels, arrays and jumps, for which temporaries and strings were issued only. -/
structure Tame (before : Context) (code : List Instr) (after : Context) : Prop where
  issued : before.Extends after
  labels : after.labels = before.labels
  loops : after.loops = before.loops
  simple : ∀ instr ∈ code, instr.isSimple = true

variable {context : Context} {instr : Instr}

namespace Tame

variable {before between after : Context} {code : List Instr}

theorem nil (context : Context) : Tame context [] context :=
  ⟨.refl context, rfl, rfl, by intro instr member; cases member⟩

theorem cons (simple : instr.isSimple = true) (more : Tame before code after) :
    Tame before (instr :: code) after :=
  { more with simple := List.forall_mem_cons.mpr ⟨simple, more.simple⟩ }

theorem single (context : Context) (simple : instr.isSimple = true) :
    Tame context [instr] context :=
  .cons simple (.nil context)

theorem append {others : List Instr} (one : Tame before code between)
    (two : Tame between others after) : Tame before (code ++ others) after where
  issued := one.issued.trans two.issued
  labels := two.labels.trans one.labels
  loops := two.loops.trans one.loops
  simple := List.forall_mem_append.mpr ⟨one.simple, two.simple⟩

theorem plain (tame : Tame before code after) : ∀ instr ∈ code, instr.isPlain = true :=
  fun instr member => Instr.isPlain_of_isSimple (tame.simple instr member)

end Tame

/-- What the code of an expression does to the names issued so far. -/
abbrev Lowered.Tame (context : Context) (lowered : Lowered) : Prop :=
  Ir.Tame context lowered.code lowered.context

namespace Lowered.Tame

theorem value (context : Context) (operand : Operand) :
    Tame context (Lowered.value context operand) :=
  .nil context

theorem computed (context : Context) (type : DataType) (line : Nat) {instr : Operand → Instr}
    (simple : ∀ dest, (instr dest).isSimple = true) :
    Tame context (Lowered.computed context type line instr) where
  issued := .newTemp context type
  labels := rfl
  loops := rfl
  simple other member := by
    cases List.mem_singleton.mp member
    exact simple _

/-- Code behind other code. -/
theorem following {first second : Lowered} (one : Tame context first)
    (two : Tame first.context second) : Tame context (second.after first.code) :=
  one.append two

theorem promote (context : Context) (line : Nat) (operand : Operand) :
    Tame context (Lowered.promote context line operand) := by
  unfold Lowered.promote
  split
  · exact value context operand
  · exact computed context _ line fun _ => rfl

theorem coerce (context : Context) (line : Nat) (target : DataType) (operand : Operand) :
    Tame context (Lowered.coerce context line target operand) := by
  unfold Lowered.coerce
  split
  · exact value context operand
  · split
    · exact value context _
    · exact promote context line operand

theorem coerced {lowered : Lowered} (tame : Tame context lowered) (line : Nat) (target : DataType) :
    Tame context (lowered.coerced line target) :=
  tame.following (coerce lowered.context line target lowered.operand)

theorem isSimple_binary (op : BinaryOp) (dest left right : Operand) :
    (Instr.binary (.ofBinary op) dest left right).isSimple = true := by
  cases op <;> rfl

variable (context : Context) (line : Nat)

theorem binary (op : BinaryOp) (left right : Operand) :
    Tame context (Lowered.binary context line op left right) := by
  unfold Lowered.binary
  split
  · exact computed context _ line fun dest => isSimple_binary op dest left right
  · split
    · exact computed context _ line fun dest => isSimple_binary op dest left right
    · have one := promote context line left
      have two := promote (Lowered.promote context line left).context line right
      exact (one.append two).append (computed _ _ line fun dest => isSimple_binary op dest _ _)

theorem unary (op : UnaryOp) (operand : Operand) :
    Tame context (Lowered.unary context line op operand) := by
  unfold Lowered.unary
  cases op with
  | minus | not => exact computed context _ line fun _ => rfl

theorem cast (target : DataType) (operand : Operand) :
    Tame context (Lowered.cast context line target operand) := by
  refine computed context target line fun dest => ?_
  unfold Opcode.ofCast
  cases operand.type.isFloat <;> cases target.isFloat <;> rfl

theorem read (storage : Storage) : Tame context (Lowered.read context line storage) := by
  unfold Lowered.read
  cases storage with
  | direct operand => exact value context operand
  | shared global => exact computed context _ line fun _ => rfl
  | array name element => exact value context _

theorem string (literal : String) :
    Tame context (Lowered.string context line literal) where
  issued := (Context.Extends.intern context literal).trans (.newTemp _ .str)
  labels := rfl
  loops := rfl
  simple instr member := by
    cases List.mem_singleton.mp member
    rfl

theorem element (array : String) (type : DataType) (index : Operand) :
    Tame context (Lowered.element context line array type index) :=
  computed context type line fun _ => rfl

theorem argCode (operands : List Operand) (position : Nat) :
    Ir.Tame context (Lowered.argCode line position operands) context := by
  induction operands generalizing position with
  | nil => exact .nil context
  | cons operand rest ih => exact .cons rfl (ih (position + 1))

theorem call (callee : String) (result : DataType) (arguments : List Operand) :
    Tame context (Lowered.call context line callee result arguments) := by
  have passed := argCode context line arguments 0
  unfold Lowered.call
  split
  · exact passed.append (.single context rfl)
  · exact passed.append (computed context result line fun _ => rfl)

end Lowered.Tame

mutual

theorem lowerExpr_tame (place : Place) (bindings : Bindings) (context : Context) :
    (expr : Expr) → (lowerExpr place bindings context expr).Tame context
  | .int _ value => .value context _
  | .float _ value => .value context _
  | .bool _ value => .value context _
  | .str position value => .string context _ value
  | .name position name => .read context _ _
  | .binary position op left right => by
    have one := lowerExpr_tame place bindings context left
    have two := lowerExpr_tame place bindings (lowerExpr place bindings context left).context right
    exact (one.append two).append (Lowered.Tame.binary _ _ op _ _)
  | .unary position op operand =>
    (lowerExpr_tame place bindings context operand).following (.unary _ _ op _)
  | .call position callee arguments => by
    exact (lowerExprs_tame place bindings context arguments).append (Lowered.Tame.call _ _ callee _ _)
  | .index position array index =>
    (lowerExpr_tame place bindings context index).following (.element _ _ array _ _)
  | .cast position target operand =>
    (lowerExpr_tame place bindings context operand).following (.cast _ _ target _)

theorem lowerExprs_tame (place : Place) (bindings : Bindings) (context : Context) :
    (exprs : List Expr) → Tame context (lowerExprs place bindings context exprs).code
      (lowerExprs place bindings context exprs).context
  | [] => .nil context
  | expr :: rest => by
    have one := lowerExpr_tame place bindings context expr
    have two := lowerExprs_tame place bindings (lowerExpr place bindings context expr).context rest
    exact one.append two

end

end ArmBackend.Ir
