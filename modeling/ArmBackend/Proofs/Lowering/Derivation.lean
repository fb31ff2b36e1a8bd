import ArmBackend.Proofs.Lowering.Entry
import ArmBackend.Proofs.Passes.Regular
import ArmBackend.Proofs.Source.Calls
import ArmBackend.Proofs.Source.Vocabulary

/-!
# How code is written

The code of statements is written in small steps: a value is computed from values that are
known, a value is stored, a label is put.  What holds of every step, and is handed on from
step to step, holds of the code of every tree.  The names are words of the tree, and the calls
are those of the tree.  Floats are computed with the types that their operations take; a
strict derivation also has the other types of well-typed trees.
-/

namespace ArmBackend.Ir

open List

open Source (Loop)

/-- Every one of the entries has the property. -/
def Every {α : Type} (holds : α → Prop) (entries : List α) : Prop :=
  ∀ entry ∈ entries, holds entry

namespace Every

variable {α : Type} {holds : α → Prop} {first second third : α} {entries others : List α}

theorem nil : Every holds [] :=
  forall_mem_nil holds

theorem cons (here : holds first) (more : Every holds entries) : Every holds (first :: entries) :=
  forall_mem_cons.mpr ⟨here, more⟩

theorem one (here : holds first) : Every holds [first] :=
  cons here nil

theorem two (here : holds first) (next : holds second) : Every holds [first, second] :=
  cons here (one next)

theorem three (here : holds first) (next : holds second) (last : holds third) :
    Every holds [first, second, third] :=
  cons here (two next last)

theorem append (every : Every holds entries) (more : Every holds others) :
    Every holds (entries ++ others) :=
  forall_mem_append.mpr ⟨every, more⟩

theorem subset (every : Every holds entries) (within : others ⊆ entries) : Every holds others :=
  fun entry member => every entry (within member)

/-- Operands are passed one by one. -/
theorem argCode {passes : Instr → Prop} {known : Operand → Prop} {line : Nat}
    (each : ∀ operand position, known operand → passes ((Instr.arg operand position).atLine line))
    (position : Nat) {operands : List Operand} (every : Every known operands) :
    Every passes (Lowered.argCode line position operands) := by
  induction operands generalizing position with
  | nil => exact nil
  | cons operand rest ih =>
    obtain ⟨here, others⟩ := forall_mem_cons.mp every
    exact cons (each operand position here) (ih (position + 1) others)

end Every

/-- The value may go to a place of the type as it is: to a float place go floats. -/
def Operand.Widened (target : DataType) (value : Operand) : Prop :=
  target.isFloat = true → value.type.isFloat = true ∨ value.type.isVoid = true

/-- What code takes from the source: its calls with the types of the arguments, and its literals. -/
structure Uses where
  calls : List (String × List DataType) := []
  literals : List String := []

namespace Uses

instance : Append Uses :=
  ⟨fun first second => ⟨first.calls ++ second.calls, first.literals ++ second.literals⟩⟩

theorem append_none (uses : Uses) : uses ++ ({} : Uses) = uses :=
  congrArg₂ mk (append_nil _) (append_nil _)

theorem append_assoc (first second third : Uses) :
    first ++ second ++ third = first ++ (second ++ third) :=
  congrArg₂ mk (List.append_assoc ..) (List.append_assoc ..)

end Uses

section

variable (place : Place) (arrays : List String) (bindings : Bindings) (strict : Prop)
  (words : Vocabulary) (context : Context) (draft : Draft) (known : List Operand)

/-- A value, computed in one step from values that are known, with what it takes. -/
inductive Evaluates : Lowered → Uses → Prop where
  | literal (value : Immediate) (type : DataType) (kind : value.isFloat = type.isFloat) :
      Evaluates (.value context (.immediate value type)) {}
  | read (line : Nat) {name : String} (word : name ∈ words.names) :
      Evaluates (.read context line (place.resolve bindings name)) {}
  | unary (line : Nat) {opcode : Opcode} (type : DataType) {source : Operand}
      (isPure : opcode.isPure = true) (there : source ∈ known)
      (typed : strict ∨ type.isFloat = true → opcode.accepts type source.type .int = true)
      (single : opcode.takes = 1) :
      Evaluates (.computed context type line fun dest => .unary opcode dest source) {}
  | binary (line : Nat) {opcode : Opcode} (type : DataType) {left right : Operand}
      (isBinary : opcode.isBinary = true) (one : left ∈ known) (two : right ∈ known)
      (typed : opcode.accepts type left.type right.type = true) :
      Evaluates (.computed context type line fun dest => .binary opcode dest left right) {}
  | string (line : Nat) (literal : String) :
      Evaluates (.string context line literal) ⟨[], [literal]⟩
  | element (line : Nat) {array : String} (word : array ∈ words.names ∧ array ∈ words.arrays)
      {index : Operand} (there : index ∈ known) :
      Evaluates (.element context line array (place.resolve bindings array).type index) {}
  | call (line : Nat) (callee : String) {operands : List Operand} (there : operands ⊆ known) :
      Evaluates (.call context line callee (place.around.resultType callee) operands)
        ⟨[(callee, operands.map Operand.type)], []⟩

/-- A step from a draft and known values to others, with the code that it adds. -/
inductive Emits : List Instr → Uses → Draft → List Operand → Prop where
  | forget {fewer : List Operand} (within : fewer ⊆ known) : Emits [] {} draft fewer
  | evaluate {lowered : Lowered} {uses : Uses}
      (step : Evaluates place draft.bindings strict words draft.context known lowered uses) :
      Emits lowered.code uses (draft.withContext lowered.context) (lowered.operand :: known)
  /-- labels are issued, and loops entered and left -/
  | relabel {context : Context} (temps : context.temps = draft.context.temps)
      (strings : context.strings = draft.context.strings) :
      Emits [] {} (draft.withContext context) known
  | store (line : Nat) {name : String} {target value : Operand} (word : name ∈ words.names)
      (stored : place.resolve draft.bindings name = .direct target ∨
        place.resolve draft.bindings name = .shared target)
      (there : value ∈ known) (widened : value.Widened target.type)
      (typed : strict → name ∉ arrays ∧ value.type = target.type) :
      Emits [(Instr.store target value).atLine line] {} draft []
  | declare (line : Nat) {name : String} {type : DataType} {value : Operand}
      (word : name ∈ words.names) (there : value ∈ known) (widened : value.Widened type)
      (typed : strict → name ∉ arrays ∧ value.type = type) :
      Emits [(Instr.store (.var name type) value).atLine line] {}
        (draft.declare name (.var name type) (.direct (.var name type))) []
  | reserve (line : Nat) {name : String} {type : DataType} (size : Nat)
      (word : name ∈ words.names) (typed : strict → name ∈ arrays) :
      Emits [(Instr.allocArray (.var name type) size).atLine line] {}
        (draft.declare name (.var name type) (.array name type)) []
  | fill (line : Nat) {array : String} {type : DataType} {index value : Operand}
      (word : array ∈ words.names ∧ array ∈ words.arrays) (there : index ∈ known)
      (there' : value ∈ known) (widened : value.Widened type) :
      Emits [(Instr.arrayStore (.element array index type) value).atLine line] {} draft []
  /-- a global gets its first value -/
  | begin (line : Nat) {name : String} {type : DataType} {value : Operand}
      (word : name ∈ words.names) (shared : place.isShared name = true) (there : value ∈ known)
      (widened : value.Widened type)
      (typed : strict → value.type = type ∧
        ∀ global ∈ place.around.global? name, global.type = type) :
      Emits [(Instr.store (.global name type) value).atLine line] {} draft []
  | mark (name : String) : Emits [Instr.mark name] {} draft []
  | jump (line : Nat) (name : String) : Emits [(Instr.jump name).atLine line] {} draft []
  /-- the function begins -/
  | enter (name : String) : Emits [Instr.enter name] {} draft []
  /-- the function ends without a result -/
  | exit (name : String) : Emits [Instr.exit name] {} draft []
  | test (line : Nat) (name : String) {condition : Operand} (there : condition ∈ known) :
      Emits [(Instr.jumpIf false condition name).atLine line] {} draft []
  | leave (line : Nat) {value : Option Operand} (there : ∀ operand ∈ value, operand ∈ known)
      (widened : ∀ operand ∈ value, operand.Widened place.result) :
      Emits [(Instr.ret value).atLine line] {} draft []
  | print (line : Nat) (newline : Bool) {value : Operand} (there : value ∈ known) :
      Emits [(Instr.print newline value).atLine line] {} draft []

/-- Steps in a row, with all the code that they add and all that it takes. -/
inductive Writes : Draft → List Operand → List Instr → Uses → Draft → List Operand → Prop where
  | refl (draft : Draft) (known : List Operand) : Writes draft known [] {} draft known
  | step {draft between final : Draft} {known middle last : List Operand}
      {first others : List Instr} {uses more : Uses}
      (emits : Emits place arrays strict words draft known first uses between middle)
      (writes : Writes between middle others more final last) :
      Writes draft known (first ++ others) (uses ++ more) final last

end

section

variable {place : Place} {arrays : List String} {strict : Prop} {words : Vocabulary}
  {draft between final : Draft} {known middle last : List Operand} {first others code : List Instr}
  {uses more : Uses}

theorem Emits.writes (emits : Emits place arrays strict words draft known code uses final last) :
    Writes place arrays strict words draft known code uses final last := by
  have one := Writes.step emits (.refl final last)
  rwa [append_nil, Uses.append_none] at one

theorem Writes.append
    (one : Writes place arrays strict words draft known first uses between middle)
    (two : Writes place arrays strict words between middle others more final last) :
    Writes place arrays strict words draft known (first ++ others) (uses ++ more) final last := by
  induction one with
  | refl => exact two
  | step emits _ ih =>
    rw [append_assoc, Uses.append_assoc]
    exact .step emits (ih two)

theorem Writes.followed
    (one : Writes place arrays strict words draft known first uses between middle)
    (two : Writes place arrays strict words between middle others {} final last) :
    Writes place arrays strict words draft known (first ++ others) uses final last := by
  have both := one.append two
  rwa [Uses.append_none] at both

/-- Only some of the values are needed later. -/
theorem Writes.forget (writes : Writes place arrays strict words draft known code uses final last)
    {fewer : List Operand} (within : fewer ⊆ last) :
    Writes place arrays strict words draft known code uses final fewer := by
  have both := writes.followed (Emits.forget within).writes
  rwa [append_nil] at both

end

/-! ## Expressions -/

variable {op : BinaryOp} {type : DataType} {draft final : Draft} {expr : Expr}
  {uses : Uses} {code : List Instr} {lowered : Lowered}
  {operand : Operand} {array : String}

theorem Opcode.accepts_ofBinary (plain : op.isLogical = false) {left right : DataType}
    (alike : left.isFloat = right.isFloat) :
    (Opcode.ofBinary op).accepts (if op.isComparison then .bool else .arithmetic left right)
      left right = true := by
  have float : (DataType.arithmetic left right).isFloat = right.isFloat := by
    rw [DataType.arithmetic, alike, Bool.or_self]
    cases right.isFloat <;> rfl
  have word : DataType.bool.isFloat = false := rfl
  cases op <;> first
    | exact absurd plain Bool.noConfusion
    | simp [Opcode.ofBinary, Opcode.accepts, BinaryOp.isComparison, float, alike, word]

namespace Lowered

theorem type_promote (context : Context) (line : Nat) (operand : Operand) :
    (promote context line operand).operand.type.isFloat = true := by
  unfold promote
  split
  · next isFloat => exact isFloat
  · rfl

theorem type_coerce (context : Context) (line : Nat) (target : DataType) (operand : Operand) :
    (coerce context line target operand).operand.type = target.fittedTo operand.type := by
  have same : (target.isFloat && !operand.type.isFloat && !operand.type.isVoid) =
      !(!target.isFloat || operand.type.isFloat || operand.type.isVoid) := by
    simp only [Bool.not_or, Bool.not_not]
  unfold coerce DataType.fittedTo
  rw [same]
  cases stays : !target.isFloat || operand.type.isFloat || operand.type.isVoid with
  | true => rfl
  | false =>
    have word : operand.type.isFloat = false := by
      simp only [Bool.or_eq_false_iff] at stays
      exact stays.1.2
    rw [if_neg Bool.false_ne_true, Bool.not_false, if_pos rfl]
    split
    · rfl
    · rw [promote, word]
      rfl

theorem type_coerced (line : Nat) (target : DataType) (lowered : Lowered) :
    (lowered.coerced line target).operand.type = target.fittedTo lowered.operand.type :=
  type_coerce lowered.context line target lowered.operand

/-- A fitted value is a float if its place is one. -/
theorem widened_coerce (context : Context) (line : Nat) (target : DataType) (operand : Operand) :
    (coerce context line target operand).operand.Widened target := by
  intro isFloat
  rw [type_coerce, DataType.fittedTo, isFloat, Bool.true_and]
  split
  · exact .inl rfl
  · next stays =>
      revert stays
      cases operand.type.isFloat <;> cases operand.type.isVoid <;> decide

theorem widened_coerced (line : Nat) (target : DataType) (lowered : Lowered) :
    (lowered.coerced line target).operand.Widened target :=
  widened_coerce lowered.context line target lowered.operand

theorem type_binary (context : Context) (line : Nat) (op : BinaryOp) (left right : Operand) :
    (binary context line op left right).operand.type =
      if op.isLogical || op.isComparison then .bool
      else .arithmetic left.type right.type := by
  unfold binary
  cases op.isLogical with
  | true => rfl
  | false =>
    rw [if_neg Bool.false_ne_true, Bool.false_or]
    split
    · rfl
    · next differ =>
        have one := type_promote context line left
        have mixed : (left.type.isFloat || right.type.isFloat) = true := by
          revert differ
          cases left.type.isFloat <;> cases right.type.isFloat <;> decide
        have both (other : DataType) :
            DataType.arithmetic (promote context line left).operand.type other =
              DataType.arithmetic left.type right.type := by
          rw [DataType.arithmetic, DataType.arithmetic, one, mixed, Bool.true_or]
        rw [← both (promote (promote context line left).context line right).operand.type]
        rfl

end Lowered

theorem type_lowerExpr (place : Place) (bindings : Bindings) (context : Context) :
    (expr : Expr) → (lowerExpr place bindings context expr).operand.type = expr.type place bindings
  | .int _ _ | .float _ _ | .bool _ _ | .str _ _ => rfl
  | .name _ text => by
    rw [lowerExpr, Expr.type]
    cases place.resolve bindings text <;> rfl
  | .binary _ op left right => by
    have one := type_lowerExpr place bindings context left
    have two := type_lowerExpr place bindings (lowerExpr place bindings context left).context right
    rw [lowerExpr, Expr.type, ← one, ← two]
    exact Lowered.type_binary ..
  | .unary _ .minus operand => type_lowerExpr place bindings context operand
  | .unary _ .not _ => rfl
  | .call _ callee arguments => by
    rw [lowerExpr, Expr.type]
    dsimp only [Lowered.after, Lowered.call]
    split <;> rfl
  | .index _ _ _ => rfl
  | .cast _ _ _ => rfl

/-- The code of a value is written from what is known, and then the value is known too. -/
def Lowered.Written (place : Place) (arrays : List String) (strict : Prop) (words : Vocabulary)
    (draft : Draft) (known : List Operand) (uses : Uses)
    (lowered : Lowered) : Prop :=
  Writes place arrays strict words draft known lowered.code uses
    (draft.withContext lowered.context) (lowered.operand :: known)

namespace Lowered.Written

variable {place : Place} {arrays : List String} {strict : Prop} {words : Vocabulary}
  {draft : Draft} {known : List Operand} {uses : Uses}

theorem of_evaluates
    (step : Evaluates place draft.bindings strict words draft.context known lowered uses) :
    lowered.Written place arrays strict words draft known uses :=
  (Emits.evaluate step).writes

/-- A value that is known needs no code. -/
theorem of_known (there : operand ∈ known) :
    (Lowered.value draft.context operand).Written place arrays strict words draft known {} :=
  (Emits.forget (cons_subset.mpr ⟨there, List.Subset.refl known⟩)).writes

theorem after {between : Draft} {middle : List Operand}
    (front : Writes place arrays strict words draft known code uses between middle)
    (written : lowered.Written place arrays strict words between middle {}) (kept : known ⊆ middle)
    (same : between.withContext lowered.context = draft.withContext lowered.context) :
    (lowered.after code).Written place arrays strict words draft known uses := by
  have both := front.followed written
  rw [same] at both
  exact both.forget (cons_subset_cons _ kept)

theorem promote (there : operand ∈ known) (line : Nat) :
    (Lowered.promote draft.context line operand).Written place arrays strict words draft known
      {} := by
  unfold Lowered.promote
  split
  · exact of_known there
  · next word =>
      refine of_evaluates (.unary line .float rfl there (fun _ => ?_) rfl)
      show (!operand.type.isFloat && true) = true
      rw [Bool.eq_false_iff.mpr word]
      rfl

theorem coerce (there : operand ∈ known) (line : Nat) (target : DataType) :
    (Lowered.coerce draft.context line target operand).Written place arrays strict words draft
      known {} := by
  unfold Lowered.coerce
  split
  · exact of_known there
  split
  · exact of_evaluates (.literal _ .float rfl)
  · exact promote there line

theorem coerced (written : lowered.Written place arrays strict words draft known uses) (line : Nat)
    (target : DataType) :
    (lowered.coerced line target).Written place arrays strict words draft known uses :=
  after written (coerce (mem_cons_self ..) line target) (subset_cons_self ..) rfl

variable {left right : Operand}

theorem operation (one : left ∈ known) (two : right ∈ known) (line : Nat)
    (plain : op.isLogical = false) (alike : left.type.isFloat = right.type.isFloat) :
    (Lowered.binary.operation line op draft.context left right).Written place arrays strict words
      draft known {} := by
  refine of_evaluates (.binary line _ ?_ one two ?_)
  · cases op <;> rfl
  · exact Opcode.accepts_ofBinary plain alike

theorem binary (one : left ∈ known) (two : right ∈ known) (line : Nat) (op : BinaryOp) :
    (Lowered.binary draft.context line op left right).Written place arrays strict words draft known
      {} := by
  unfold Lowered.binary
  split
  · next logical =>
      refine of_evaluates (.binary line .bool ?_ one two ?_)
      · cases op <;> rfl
      · cases op <;> first | rfl | cases logical
  · next plain =>
      split
      · next alike => exact operation one two line (Bool.eq_false_iff.mpr plain) (eq_of_beq alike)
      · have first : (Lowered.promote draft.context line left).Written place arrays strict words
            draft known {} := promote one line
        have second : (Lowered.promote (Lowered.promote draft.context line left).context line
            right).Written place arrays strict words
            (draft.withContext (Lowered.promote draft.context line left).context)
            ((Lowered.promote draft.context line left).operand :: known) {} :=
          promote (mem_cons_of_mem _ two) line
        refine after (first.append second) ?_ ?_ rfl
        · refine operation ?_ ?_ line (Bool.eq_false_iff.mpr plain) ?_
          · exact mem_cons_of_mem _ (mem_cons_self ..)
          · exact mem_cons_self ..
          · rw [Lowered.type_promote, Lowered.type_promote]
        · exact subset_cons_of_subset _ (subset_cons_self ..)

variable {operand : Operand} (there : operand ∈ known) (line : Nat)
include there

theorem unary {op : UnaryOp} (typed : strict → op = .not → operand.type.isFloat = false) :
    (Lowered.unary draft.context line op operand).Written place arrays strict words draft known
      {} := by
  cases op with
  | minus =>
    refine of_evaluates (.unary line operand.type rfl there (fun _ => ?_) rfl)
    simp [Opcode.accepts]
  | not =>
    refine of_evaluates (.unary line .bool rfl there ?_ rfl)
    rintro (strictly | float)
    · show (!operand.type.isFloat && true) = true
      rw [typed strictly rfl]
      rfl
    · cases float

theorem cast (target : DataType) :
    (Lowered.cast draft.context line target operand).Written place arrays strict words draft known
      {} := by
  refine of_evaluates (.unary line target ?_ there (fun _ => ?_) ?_)
  · unfold Opcode.ofCast
    split <;> rfl
  · unfold Opcode.ofCast
    cases one : operand.type.isFloat <;> cases two : target.isFloat <;>
      simp [Opcode.accepts, one, two]
  · unfold Opcode.ofCast
    split <;> rfl

end Lowered.Written

section

variable (place : Place) (arrays : List String) {strict : Prop} {words : Vocabulary}

theorem types_lowerExprs (bindings : Bindings) (context : Context) (exprs : List Expr) :
    (lowerExprs place bindings context exprs).operands.map Operand.type =
      exprs.map (Expr.type place bindings) := by
  induction exprs generalizing context with
  | nil => rfl
  | cons expr rest ih =>
    exact congrArg₂ List.cons (type_lowerExpr place bindings context expr) (ih _)

/-- Where a check is made, its parts hold. -/
theorem holds_both {first second : Bool} (holds : strict → (first && second) = true) :
    (strict → first = true) ∧ (strict → second = true) := by
  simpa only [Bool.and_eq_true, imp_and] using holds

mutual

theorem lowerExpr_written (draft : Draft) (known : List Operand) : (expr : Expr) →
    (within : expr.Within words) →
    (typed : strict → expr.negatesNoFloat place draft.bindings = true) →
    (lowerExpr place draft.bindings draft.context expr).Written place arrays strict words draft
      known ⟨expr.calls place draft.bindings, expr.literals⟩
  | .int _ value, _, _ => .of_evaluates (.literal (.int value) .int rfl)
  | .float _ value, _, _ => .of_evaluates (.literal (.float value) .float rfl)
  | .bool _ value, _, _ => .of_evaluates (.literal (.int (Word.ofBool value)) .bool rfl)
  | .str position value, _, _ => .of_evaluates (.string position.line value)
  | .name position name, within, _ =>
    .of_evaluates (.read position.line (within.names (mem_singleton_self name)))
  | .binary position op left right, ⟨names, indexed⟩, typed => by
    obtain ⟨first, second⟩ := holds_both typed
    rw [Expr.names, append_subset] at names
    rw [Expr.indexed, append_subset] at indexed
    have one := lowerExpr_written draft known left ⟨names.1, indexed.1⟩ first
    have two := lowerExpr_written
      (draft.withContext (lowerExpr place draft.bindings draft.context left).context)
      ((lowerExpr place draft.bindings draft.context left).operand :: known) right
      ⟨names.2, indexed.2⟩ second
    refine .after (one.append two) (.binary ?_ ?_ position.line op) ?_ rfl
    · exact mem_cons_of_mem _ (mem_cons_self ..)
    · exact mem_cons_self ..
    · exact subset_cons_of_subset _ (subset_cons_self ..)
  | .unary position .minus operand, ⟨names, indexed⟩, typed => by
    have one := lowerExpr_written draft known operand ⟨names, indexed⟩ typed
    refine .after one (.unary (mem_cons_self ..) position.line ?_) (subset_cons_self ..) rfl
    intro _ clash
    cases clash
  | .unary position .not operand, ⟨names, indexed⟩, typed => by
    simp only [Expr.negatesNoFloat, Bool.and_eq_true, Bool.not_eq_true', imp_and] at typed
    have one := lowerExpr_written draft known operand ⟨names, indexed⟩ typed.2
    refine .after one (.unary (mem_cons_self ..) position.line ?_) (subset_cons_self ..) rfl
    intro strictly _
    rw [type_lowerExpr]
    exact typed.1 strictly
  | .call position callee arguments, ⟨names, indexed⟩, typed => by
    have given := lowerExprs_written draft known arguments (Expr.within_of_list names indexed) typed
    rw [Expr.calls, Expr.literals, ← types_lowerExprs place draft.bindings draft.context arguments,
      ← append_nil (Expr.literalsInList arguments)]
    refine (given.append (Emits.evaluate (.call position.line callee ?_)).writes).forget ?_
    · exact subset_append_left ..
    · exact cons_subset_cons _ (subset_append_right ..)
  | .index position array index, ⟨names, indexed⟩, typed => by
    rw [Expr.names, cons_subset] at names
    rw [Expr.indexed, cons_subset] at indexed
    have one := lowerExpr_written draft known index ⟨names.2, indexed.2⟩ typed
    exact .after one (.of_evaluates (.element position.line ⟨names.1, indexed.1⟩
      (mem_cons_self ..))) (subset_cons_self ..) rfl
  | .cast position target operand, ⟨names, indexed⟩, typed => by
    have one := lowerExpr_written draft known operand ⟨names, indexed⟩ typed
    exact .after one (.cast (mem_cons_self ..) position.line target)
      (subset_cons_self ..) rfl

theorem lowerExprs_written (draft : Draft) (known : List Operand) : (exprs : List Expr) →
    (within : ∀ expr ∈ exprs, expr.Within words) →
    (typed : strict → Expr.negateNoFloat place draft.bindings exprs = true) →
    Writes place arrays strict words draft known
      (lowerExprs place draft.bindings draft.context exprs).code
      ⟨Expr.callsInList place draft.bindings exprs, Expr.literalsInList exprs⟩
      (draft.withContext (lowerExprs place draft.bindings draft.context exprs).context)
      ((lowerExprs place draft.bindings draft.context exprs).operands ++ known)
  | [], _, _ => .refl draft known
  | expr :: rest, within, typed => by
    obtain ⟨first, later⟩ := holds_both typed
    obtain ⟨here, others⟩ := forall_mem_cons.mp within
    have one := lowerExpr_written draft known expr here first
    have two := lowerExprs_written
      (draft.withContext (lowerExpr place draft.bindings draft.context expr).context)
      ((lowerExpr place draft.bindings draft.context expr).operand :: known) rest others later
    refine (one.append two).forget ?_
    intro operand member
    simp only [lowerExprs, cons_append, mem_cons, mem_append] at member ⊢
    tauto

end

/-- The value of an expression, fitted to a type. -/
theorem lowerExpr_coerced (draft : Draft) (known : List Operand) (within : expr.Within words)
    (typed : strict → expr.fits place draft.bindings type = true) (line : Nat) :
    ((lowerExpr place draft.bindings draft.context expr).coerced line type).Written place arrays
        strict words draft known ⟨expr.calls place draft.bindings, expr.literals⟩ ∧
      (strict → ((lowerExpr place draft.bindings draft.context expr).coerced line
        type).operand.type = type) := by
  simp only [Expr.fits, Bool.and_eq_true, decide_eq_true_eq, imp_and] at typed
  refine ⟨(lowerExpr_written place arrays draft known expr within
    typed.1).coerced line type, fun strictly => ?_⟩
  rw [Lowered.type_coerced, type_lowerExpr]
  exact typed.2 strictly

theorem lowerInitial_coerced (draft : Draft) (known : List Operand) {initial : Option Expr}
    (within : ∀ expr ∈ initial, expr.Within words)
    (typed : strict → initial.all (Expr.fits place draft.bindings type) = true) (line : Nat) :
    ((lowerInitial place draft type initial).coerced line type).Written place arrays strict words
        draft known
        ⟨Expr.callsInOption place draft.bindings initial, Expr.literalsInOption initial⟩ ∧
      (strict →
        ((lowerInitial place draft type initial).coerced line type).operand.type = type) := by
  cases initial with
  | some expr => exact lowerExpr_coerced place arrays draft known (within expr rfl) typed line
  | none =>
    have zero : (Lowered.value draft.context (.zero type)).Written place arrays strict words draft
        known {} := by
      cases type <;> exact .of_evaluates (.literal _ _ rfl)
    refine ⟨zero.coerced line type, fun _ => ?_⟩
    rw [lowerInitial, Lowered.type_coerced]
    cases type <;> rfl

end

/-! ## Statements -/

section

variable (place : Place) (arrays : List String) {strict : Prop} {words : Vocabulary}

/-- A value is stored in an element of an array. -/
theorem lowerExpr_fill (draft : Draft) (line : Nat)
    (word : array ∈ words.names ∧ array ∈ words.arrays) (index : Operand)
    (within : expr.Within words) (typed : strict → expr.fits place draft.bindings type = true) :
    let value := (lowerExpr place draft.bindings draft.context expr).coerced line type
    Writes place arrays strict words draft [index]
      (value.code ++ [(Instr.arrayStore (.element array index type) value.operand).atLine line])
      ⟨expr.calls place draft.bindings, expr.literals⟩ (draft.withContext value.context) [] := by
  have value := (lowerExpr_coerced place arrays draft [index] within typed line).1
  refine value.followed (Emits.fill line word ?_ ?_ ?_).writes
  · exact mem_cons_of_mem _ (mem_cons_self ..)
  · exact mem_cons_self ..
  · exact Lowered.widened_coerced _ _ _

/-- Values are stored in the elements of an array. -/
theorem lowerElements_writes (line : Nat) (word : array ∈ words.names ∧ array ∈ words.arrays)
    (type : DataType) (exprs : List Expr) (index : Nat) (draft : Draft)
    (within : ∀ expr ∈ exprs, expr.Within words)
    (typed : strict → exprs.all (Expr.fits place draft.bindings type) = true) :
    Writes place arrays strict words draft []
      (lowerElements place draft.bindings line array type index draft.context exprs).1
      ⟨Expr.callsInList place draft.bindings exprs, Expr.literalsInList exprs⟩
      (draft.withContext
        (lowerElements place draft.bindings line array type index draft.context exprs).2) [] := by
  induction exprs generalizing index draft with
  | nil => exact .refl draft []
  | cons expr rest ih =>
    obtain ⟨typed, later⟩ := holds_both typed
    obtain ⟨here, others⟩ := forall_mem_cons.mp within
    have position : (Lowered.value draft.context (.nat index)).Written place arrays strict words
        draft [] {} := .of_evaluates (.literal _ .int rfl)
    have filled := lowerExpr_fill place arrays draft line word (.nat index) here typed
    have more := ih (index + 1) (draft.withContext
      ((lowerExpr place draft.bindings draft.context expr).coerced line type).context) others later
    have all := (position.append filled).append more
    rw [append_assoc, append_assoc] at all
    exact all

/-- The test of a condition. -/
theorem lowerExpr_test (draft : Draft) (line : Nat) (target : String) {condition : Expr}
    (within : condition.Within words)
    (typed : strict → condition.negatesNoFloat place draft.bindings = true) :
    Writes place arrays strict words draft []
      ((lowerExpr place draft.bindings draft.context condition).code ++
        [(Instr.jumpIf false (lowerExpr place draft.bindings draft.context condition).operand
          target).atLine line]) ⟨condition.calls place draft.bindings, condition.literals⟩
      (draft.withContext (lowerExpr place draft.bindings draft.context condition).context) [] :=
  (lowerExpr_written place arrays draft [] condition within typed).followed
    (Emits.test line target (mem_cons_self ..)).writes

/-- The test of a loop. -/
theorem testCode_writes (draft : Draft) (line : Nat) (labels : LoopLabels) (loop : Loop)
    (within : ∀ expr ∈ loop.condition, expr.Within words)
    (typed : strict → loop.condition.all (Expr.negatesNoFloat place draft.bindings) = true) :
    Writes place arrays strict words draft [] (testCode place draft line labels loop).1
      ⟨Expr.callsInOption place draft.bindings loop.condition, Expr.literalsInOption loop.condition⟩
      (testCode place draft line labels loop).2 [] := by
  obtain ⟨condition, update, body⟩ := loop
  cases condition with
  | none => exact .refl draft []
  | some condition =>
    exact lowerExpr_test place arrays draft line labels.breakTo (within condition rfl) typed

theorem lowerLoopJump_writes {position : Position} {misuse : Misuse} {target : Option String}
    (lowered : lowerLoopJump draft position misuse target = .ok (code, final)) :
    Writes place arrays strict words draft [] code {} final [] := by
  cases target with
  | none => cases lowered
  | some target =>
    cases lowered
    exact (Emits.jump position.line target).writes

/-- Labels are issued before the code. -/
theorem Writes.issueLabels {last : List Operand} {count : Nat} {known : List Operand}
    (writes : Writes place arrays strict words (draft.issueLabels count) known code uses final
      last) : Writes place arrays strict words draft known code uses final last := by
  have issued : Emits place arrays strict words draft known [] {} (draft.issueLabels count)
      known := .relabel rfl rfl
  exact .step issued writes

/-- The code stands in a loop. -/
theorem Writes.inLoop {labels : LoopLabels}
    (writes : Writes place arrays strict words (draft.enterLoop labels) [] code uses final []) :
    Writes place arrays strict words draft [] code uses final.exitLoop [] := by
  have entered : Emits place arrays strict words draft [] [] {} (draft.enterLoop labels) [] :=
    .relabel rfl rfl
  have left : Emits place arrays strict words final [] [] {} final.exitLoop [] := .relabel rfl rfl
  have both := (Writes.step entered writes).followed left.writes
  rwa [append_nil] at both

/-- The code of the statement is written, with its calls and literals. -/
abbrev WritesStmt (strict : Prop) (words : Vocabulary) (stmt : Stmt) : Prop :=
  ∀ {draft final : Draft} {code : List Instr}, lowerStmt place draft stmt = .ok (code, final) →
    stmt.Within words → (strict → stmt.isTyped place arrays draft.bindings = true) →
    Writes place arrays strict words draft [] code
      ⟨stmt.calls place draft.bindings, stmt.literals⟩ final []

abbrev WritesStmts (strict : Prop) (words : Vocabulary) (stmts : List Stmt) : Prop :=
  ∀ {draft final : Draft} {code : List Instr}, lowerStmts place draft stmts = .ok (code, final) →
    (∀ stmt ∈ stmts, stmt.Within words) →
    (strict → Stmt.areTyped place arrays draft.bindings stmts = true) →
    Writes place arrays strict words draft [] code
      ⟨Stmt.callsInList place draft.bindings stmts, Stmt.literalsInList stmts⟩ final []

theorem lowerOption_writes {stmt : Option Stmt}
    (writes : ∀ inner ∈ stmt, WritesStmt place arrays strict words inner)
    (lowered : lowerOptional place draft stmt = .ok (code, final))
    (within : ∀ inner ∈ stmt, inner.Within words)
    (typed : strict → Stmt.optionIsTyped place arrays draft.bindings stmt = true) :
    Writes place arrays strict words draft [] code
      ⟨Stmt.callsInOption place draft.bindings stmt, Stmt.literalsInOption stmt⟩ final [] := by
  cases stmt with
  | none =>
    cases lowered
    exact .refl draft []
  | some stmt => exact writes stmt rfl lowered (within stmt rfl) typed

section

variable {position : Position} {name : String} {value condition : Expr} {thenBranch : List Stmt}

theorem varDecl_writes {initial : Option Expr} :
    WritesStmt place arrays strict words (.varDecl position name type initial) := by
  rintro draft final code lowered ⟨names, declares, indexed⟩ typed
  obtain ⟨plain, typed⟩ := holds_both typed
  simp only [Bool.not_eq_true', contains_eq_mem, decide_eq_false_iff_not] at plain
  obtain ⟨value, fits⟩ := lowerInitial_coerced place arrays draft []
    (Expr.within_of_option names indexed) typed position.line
  cases lowered
  refine value.followed (Emits.declare position.line
    (declares (mem_singleton_self name)) (mem_cons_self ..) ?_ ?_).writes
  · exact Lowered.widened_coerced _ _ _
  · exact fun strictly => ⟨plain strictly, fits strictly⟩

theorem arrayDecl_writes {size : Nat} {elements : List Expr} :
    WritesStmt place arrays strict words (.arrayDecl position name type size elements) := by
  rintro draft final code lowered ⟨names, declares, indexed⟩ typed
  obtain ⟨known, typed⟩ := holds_both typed
  simp only [contains_eq_mem, decide_eq_true_eq] at known
  rw [Stmt.indexed, cons_subset] at indexed
  have word : name ∈ words.names := declares (mem_singleton_self name)
  have filled := lowerElements_writes place arrays position.line ⟨word, indexed.1⟩ type elements 0
    (draft.declare name (.var name type) (.array name type))
    (Expr.within_of_list names indexed.2) typed
  cases lowered
  exact .step (.reserve position.line size word known) filled

theorem assign_writes : WritesStmt place arrays strict words (.assign position name value) := by
  rintro draft final code lowered ⟨names, _, indexed⟩ typed
  obtain ⟨plain, typed⟩ := holds_both typed
  simp only [Bool.not_eq_true', contains_eq_mem, decide_eq_false_iff_not] at plain
  rw [Stmt.names, cons_subset] at names
  obtain ⟨target, stored, rfl, rfl⟩ := lowerAssign_ok lowered
  have type : (place.resolve draft.bindings name).type = target.type := by
    rcases stored with stored | stored <;> rw [stored] <;> rfl
  rw [type] at typed
  obtain ⟨value, fits⟩ := lowerExpr_coerced place arrays draft [] ⟨names.2, indexed⟩
    typed position.line
  refine value.followed (Emits.writes ?_)
  refine .store position.line names.1 stored (mem_cons_self ..) ?_ ?_
  · exact Lowered.widened_coerced _ _ _
  · exact fun strictly => ⟨plain strictly, fits strictly⟩

theorem indexAssign_writes {index : Expr} :
    WritesStmt place arrays strict words (.indexAssign position name index value) := by
  rintro draft final code lowered ⟨names, _, indexed⟩ typed
  obtain ⟨whole, typed⟩ := holds_both typed
  rw [Stmt.names, cons_subset, append_subset] at names
  rw [Stmt.indexed, cons_subset, append_subset] at indexed
  have one := lowerExpr_written place arrays draft [] index ⟨names.2.1, indexed.2.1⟩ whole
  have two := lowerExpr_fill place arrays
    (draft.withContext (lowerExpr place draft.bindings draft.context index).context)
    position.line ⟨names.1, indexed.1⟩
    (lowerExpr place draft.bindings draft.context index).operand ⟨names.2.2, indexed.2.2⟩ typed
  have all := one.append two
  rw [← append_assoc] at all
  cases lowered
  exact all

theorem if_writes (branch : WritesStmts place arrays strict words thenBranch) :
    WritesStmt place arrays strict words (.ifElse position condition thenBranch none) := by
  intro draft final code lowered within typed
  obtain ⟨checked, typed⟩ := holds_both (holds_both typed).1
  obtain ⟨tested, inside, _⟩ := within.ifElse
  obtain ⟨thenCode, inner, rfl⟩ := lowerStmt_if lowered
  have test (target : String) := lowerExpr_test place arrays draft position.line target tested
    checked
  have first := branch inner inside typed
  rw [append_cons]
  exact (test _).append (Writes.issueLabels place arrays (first.append (Emits.mark _).writes))

theorem ifElse_writes {elseBranch : List Stmt}
    (branch : WritesStmts place arrays strict words thenBranch)
    (other : WritesStmts place arrays strict words elseBranch) :
    WritesStmt place arrays strict words
      (.ifElse position condition thenBranch (some elseBranch)) := by
  intro draft final code lowered within typed
  obtain ⟨typed, later⟩ := holds_both typed
  obtain ⟨checked, typed⟩ := holds_both typed
  obtain ⟨tested, inside, outside⟩ := within.ifElse
  obtain ⟨thenCode, elseCode, between, one, two, rfl⟩ := lowerStmt_ifElse lowered
  have test (target : String) := lowerExpr_test place arrays draft position.line target tested
    checked
  have first := branch one inside typed
  have bound : between.bindings = Stmt.bindList draft.bindings thenBranch :=
    (lowerStmts_lowers place _ _ _ thenBranch one).bindings
  have second := other two (outside elseBranch rfl) (bound ▸ later)
  rw [bound] at second
  rw [append_cons]
  exact (test _).append (Writes.issueLabels place arrays (first.append
    (.step (.jump 0 _) (.step (.mark _) (second.followed (Emits.mark _).writes)))))

variable {body : List Stmt} (around : WritesStmts place arrays strict words body)
include around

theorem while_writes : WritesStmt place arrays strict words
    (.whileLoop position condition body) := by
  intro draft final code lowered within typed
  obtain ⟨checked, typed⟩ := holds_both typed
  obtain ⟨tested, inner⟩ := within.whileLoop
  obtain ⟨bodyCode, after, loop, rfl⟩ := lowerStmt_while lowered
  have test (labels : LoopLabels) := testCode_writes place arrays (draft.issueLabels 2)
    position.line labels ⟨some condition, none, body⟩ (by rintro _ ⟨⟩; exact tested) checked
  have inside := around loop.body inner typed
  cases loop.update
  exact Writes.issueLabels place arrays (.step (.mark _) ((test _).append
    ((Writes.inLoop place arrays inside).followed (.step (.jump 0 _) (Emits.mark _).writes))))

theorem for_writes {start update : Option Stmt} {condition : Option Expr}
    (begins : ∀ stmt ∈ start, WritesStmt place arrays strict words stmt)
    (goesOn : ∀ stmt ∈ update, WritesStmt place arrays strict words stmt) :
    WritesStmt place arrays strict words (.forLoop position start condition update body) := by
  intro draft final code lowered within typed
  obtain ⟨typed, updating⟩ := holds_both typed
  obtain ⟨typed, looping⟩ := holds_both typed
  obtain ⟨starting, checked⟩ := holds_both typed
  obtain ⟨beginning, tested, updates, inner⟩ := within.forLoop
  obtain ⟨startCode, begun, bodyCode, updateCode, after, one, loop, rfl⟩ := lowerStmt_for lowered
  have first := lowerOption_writes place arrays begins one beginning starting
  have bound : begun.bindings = Stmt.bindOption draft.bindings start :=
    (lowerOption_lowers place _ _ _ start one).bindings.trans (Stmt.bindOption_eq ..).symm
  have test (labels : LoopLabels) := testCode_writes place arrays (begun.issueLabels 3)
    position.line labels ⟨condition, update, body⟩ tested (bound ▸ checked)
  have entered (labels : LoopLabels) : ((testCode place (begun.issueLabels 3) position.line labels
      ⟨condition, update, body⟩).2.enterLoop labels).bindings =
        Stmt.bindOption draft.bindings start := by
    cases condition <;> exact bound
  have inside := around loop.body inner fun strictly => by
    rw [entered]
    exact looping strictly
  have behind : after.exitLoop.bindings =
      Stmt.bindList (Stmt.bindOption draft.bindings start) body := by
    rw [← entered]
    exact (lowerStmts_lowers place _ _ _ body loop.body).bindings
  have last := lowerOption_writes place arrays goesOn loop.update updates fun strictly => by
    rw [behind]
    exact updating strictly
  rw [Stmt.calls, Stmt.literals, ← behind, ← bound]
  have looped := Writes.inLoop place arrays inside
  rw [entered, ← bound] at looped
  exact first.append (Writes.issueLabels place arrays (.step (.mark _)
    ((test _).append (looped.append (.step (.mark _) (last.followed
      (.step (.jump 0 _) (Emits.mark _).writes)))))))

end

mutual

theorem lowerStmt_writes : (stmt : Stmt) → WritesStmt place arrays strict words stmt
  | .varDecl _ _ _ _ => varDecl_writes place arrays
  | .arrayDecl _ _ _ _ _ => arrayDecl_writes place arrays
  | .assign _ _ _ => assign_writes place arrays
  | .indexAssign _ _ _ _ => indexAssign_writes place arrays
  | .ifElse _ _ thenBranch none => if_writes place arrays (lowerStmts_writes thenBranch)
  | .ifElse _ _ thenBranch (some elseBranch) =>
    ifElse_writes place arrays (lowerStmts_writes thenBranch) (lowerStmts_writes elseBranch)
  | .whileLoop _ _ body => while_writes place arrays (lowerStmts_writes body)
  | .forLoop _ start _ update body =>
    for_writes place arrays (lowerStmts_writes body) (lowerOption_each start)
      (lowerOption_each update)
  | .block _ body => fun lowered within typed =>
    lowerStmts_writes body lowered within.block typed
  | .functionDecl _ _ _ _ _ => fun lowered _ _ => by
    cases lowered
    exact .refl _ []
  | .ret position none => fun lowered _ _ => by
    cases lowered
    refine (Emits.leave position.line ?_ ?_).writes
    · intro operand given
      cases given
    · intro operand given
      cases given
  | .ret position (some value) => fun lowered ⟨names, _, indexed⟩ typed => by
    have value := (lowerExpr_written place arrays _ [] value ⟨names, indexed⟩ typed).coerced
      position.line place.result
    cases lowered
    refine value.followed (Emits.leave position.line ?_ ?_).writes
    · rintro operand ⟨⟩
      exact mem_cons_self ..
    · rintro operand ⟨⟩
      exact Lowered.widened_coerced _ _ _
  | .print position value | .println position value => fun lowered ⟨names, _, indexed⟩ typed => by
    have value := lowerExpr_written place arrays _ [] value ⟨names, indexed⟩ typed
    cases lowered
    exact value.followed (Emits.print position.line _ (mem_cons_self ..)).writes
  | .expr _ value => fun lowered ⟨names, _, indexed⟩ typed => by
    have value := lowerExpr_written place arrays _ [] value ⟨names, indexed⟩ typed
    cases lowered
    exact value.forget (nil_subset _)
  | .breakLoop _ | .continueLoop _ => fun lowered _ _ => lowerLoopJump_writes place arrays lowered

theorem lowerOption_each : (stmt : Option Stmt) →
    ∀ inner ∈ stmt, WritesStmt place arrays strict words inner
  | some stmt, _, rfl => lowerStmt_writes stmt

theorem lowerStmts_writes : (stmts : List Stmt) → WritesStmts place arrays strict words stmts
  | [] => fun lowered _ _ => by
    cases lowered
    exact .refl _ []
  | stmt :: rest => fun lowered within typed => by
    obtain ⟨typed, later⟩ := holds_both typed
    obtain ⟨here, others⟩ := forall_mem_cons.mp within
    obtain ⟨first, others, between, one, two, rfl⟩ := lowerStmts_cons lowered
    have head := lowerStmt_writes stmt one here typed
    have bound : between.bindings = stmt.bind _ := (lowerStmt_lowers place _ _ _ stmt one).bindings
    have tail := lowerStmts_writes rest two ‹_› (bound ▸ later)
    rw [bound] at tail
    exact head.append tail

end

/-- The globals have the types of the declarations of their names at top level. -/
def Place.Uniform (stmt : Stmt) : Prop :=
  ∀ declaration ∈ TopLevel.ofStmt? stmt, ∀ global ∈ place.around.global? declaration.name,
    global.type = declaration.type

theorem lowerEntryStmt_shared {stmt : Stmt}
    (lowered : lowerEntryStmt place draft stmt = .ok (code, final))
    (shared : stmt.sharesName place.isShared = true) (within : stmt.Within words)
    (typed : strict → stmt.initialFits place draft.bindings = true)
    (uniform : strict → place.Uniform stmt) :
    Writes place arrays strict words draft [] code
      ⟨stmt.initialCalls place draft.bindings, stmt.literals⟩ final [] := by
  obtain ⟨names, declares, indexed⟩ := within
  cases stmt with
  | varDecl position name type initial =>
    rw [lowerEntryStmt_varDecl shared] at lowered
    cases lowered
    obtain ⟨value, fits⟩ := lowerInitial_coerced place arrays draft []
      (Expr.within_of_option names indexed) typed position.line
    rw [Stmt.literals]
    refine value.followed (Emits.writes ?_)
    refine .begin position.line (declares (mem_singleton_self name)) shared
      (mem_cons_self ..) ?_ ?_
    · exact Lowered.widened_coerced _ _ _
    · exact fun strictly => ⟨fits strictly, uniform strictly ⟨name, type, none⟩ rfl⟩
  | arrayDecl position name type size elements =>
    rw [Stmt.indexed, cons_subset] at indexed
    rw [lowerEntryStmt_arrayDecl shared] at lowered
    cases lowered
    rw [Stmt.literals]
    exact lowerElements_writes place arrays position.line
      ⟨declares (mem_singleton_self name), indexed.1⟩ type elements 0 draft
      (Expr.within_of_list names indexed.2) typed
  | _ => cases shared

theorem lowerEntry_writes {stmts : List Stmt}
    (lowered : lowerEntry place draft stmts = .ok (code, final))
    (within : ∀ stmt ∈ stmts, stmt.Within words)
    (typed : strict → Stmt.entryIsTyped place arrays draft.bindings stmts = true)
    (uniform : strict → ∀ stmt ∈ stmts, place.Uniform stmt) :
    Writes place arrays strict words draft [] code
      ⟨Stmt.entryCalls place draft.bindings stmts, Stmt.literalsInList stmts⟩ final [] := by
  induction stmts generalizing draft code with
  | nil =>
    cases lowered
    exact .refl _ []
  | cons stmt rest ih =>
    simp only [Stmt.entryIsTyped, Stmt.entryBind, ← Place.sharesName_eq, Bool.and_eq_true,
      imp_and] at typed
    obtain ⟨first, others, between, one, two, rfl⟩ := lowerEntry_cons lowered
    obtain ⟨here, later⟩ := forall_mem_cons.mp within
    simp only [forall_mem_cons, imp_and] at uniform
    have bound : between.bindings = if stmt.sharesName place.isShared then draft.bindings
        else stmt.bind draft.bindings := by
      rw [(lowerEntryStmt_lowers one).bindings]
      split <;> rfl
    rw [Stmt.entryCalls, Stmt.entryBind, Stmt.literalsInList, ← Place.sharesName_eq, ← bound]
    rw [← bound] at typed
    have tail := ih two later typed.2 uniform.2
    have head : Writes place arrays strict words draft [] first
        ⟨if stmt.sharesName place.isShared then stmt.initialCalls place draft.bindings
          else stmt.calls place draft.bindings, stmt.literals⟩ between [] := by
      cases shared : stmt.sharesName place.isShared with
      | true =>
        rw [shared, if_pos rfl] at typed
        exact lowerEntryStmt_shared place arrays one shared here
          typed.1 uniform.1
      | false =>
        rw [shared, if_neg Bool.false_ne_true] at typed
        rw [lowerEntryStmt_of_not shared] at one
        exact lowerStmt_writes place arrays stmt one here typed.1
    exact head.append tail

end

end ArmBackend.Ir
