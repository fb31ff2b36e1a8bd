import ArmBackend.Proofs.Json.Library

/-!
# Written trees are read back

The decoder of trees undoes the encoder where all numbers have a place in the document, at
every number of levels that is enough for what was written; the cases follow the
alternatives of expressions and statements.
-/

namespace ArmBackend

open Json

/-! ## What a document can hold -/

/-- Lines and columns have 32 bits. -/
structure Position.Fits (position : Position) : Prop where
  line : position.line < Nat.pow 2 32
  column : position.column < Nat.pow 2 32

namespace Expr

mutual

/-- Every number in the expression has a place in a document; infinities and NaN have none. -/
def Fits : Expr → Prop
  | int position _ => position.Fits
  | float position value => position.Fits ∧ value.Finite
  | bool position _ => position.Fits
  | str position _ => position.Fits
  | name position _ => position.Fits
  | binary position _ left right => position.Fits ∧ left.Fits ∧ right.Fits
  | unary position _ operand => position.Fits ∧ operand.Fits
  | call position _ arguments => position.Fits ∧ FitsList arguments
  | index position _ element => position.Fits ∧ element.Fits
  | cast position _ operand => position.Fits ∧ operand.Fits

def FitsList : List Expr → Prop
  | [] => True
  | expr :: rest => expr.Fits ∧ FitsList rest

end

/-- The same for an expression that may be missing. -/
def FitsOption (value : Option Expr) : Prop :=
  ∀ expr ∈ value, expr.Fits

end Expr

namespace Stmt

mutual

/-- Every number in the statement has a place in a document; sizes have 64 bits. -/
def Fits : Stmt → Prop
  | varDecl position _ _ initial => position.Fits ∧ Expr.FitsOption initial
  | arrayDecl position _ _ size elements =>
    position.Fits ∧ size < Nat.pow 2 64 ∧ Expr.FitsList elements
  | assign position _ value => position.Fits ∧ value.Fits
  | indexAssign position _ index value => position.Fits ∧ index.Fits ∧ value.Fits
  | ifElse position condition thenBranch elseBranch =>
    position.Fits ∧ condition.Fits ∧ FitsList thenBranch ∧
      match elseBranch with
      | none => True
      | some body => FitsList body
  | whileLoop position condition body => position.Fits ∧ condition.Fits ∧ FitsList body
  | forLoop position start condition update body =>
    position.Fits ∧
      (match start with
        | none => True
        | some stmt => stmt.Fits) ∧
      Expr.FitsOption condition ∧
      (match update with
        | none => True
        | some stmt => stmt.Fits) ∧
      FitsList body
  | block position body => position.Fits ∧ FitsList body
  | functionDecl position _ _ _ body => position.Fits ∧ FitsList body
  | ret position value => position.Fits ∧ Expr.FitsOption value
  | print position value => position.Fits ∧ value.Fits
  | println position value => position.Fits ∧ value.Fits
  | expr position value => position.Fits ∧ value.Fits
  | breakLoop position => position.Fits
  | continueLoop position => position.Fits

def FitsList : List Stmt → Prop
  | [] => True
  | stmt :: rest => stmt.Fits ∧ FitsList rest

end

end Stmt

/-! ## Small parts -/

@[simp]
theorem DataType.ofName?_name (type : DataType) : ofName? type.name = some type := by
  cases type <;> rfl

@[simp]
theorem BinaryOp.ofName?_name (op : BinaryOp) : ofName? op.name = some op := by
  cases op <;> rfl

@[simp]
theorem UnaryOp.ofName?_name (op : UnaryOp) : ofName? op.name = some op := by
  cases op <;> rfl

@[simp]
theorem DataType.written_toJson (type : DataType) : Written Stands type.toJson :=
  .text _

@[simp]
theorem DataType.read?_toJson (type : DataType) (levels : Nat) :
    read? levels type.toJson = some type := by
  simp [read?, toJson]

variable {content kind : Document} {levels : Nat} {position : Position} {tag : String}

theorem Position.read?_toJson (fits : position.Fits) : Decodes read? position.toJson position := by
  refine .members (by simp) fun lower _ => ?_
  simp (disch := simp) [read?, slots?_ofMembers, count32?_ofNat fits.line,
    count32?_ofNat fits.column]

theorem Json.depth_tagged_le :
    (tagged tag content).depth ≤ levels ↔
      ∃ lower, levels = lower + 1 ∧ content.depth ≤ lower := by
  simp [tagged, depth_ofMembers_le]

theorem Json.written_tagged (tag : String) (written : Written Stands content) :
    Written Stands (tagged tag content) :=
  .members (by simpa using written)

/-! ## Expressions -/

namespace Expr

theorem read?_tagged {expr : Expr} (fits : position.Fits)
    (decodes : Decodes (readContent? · position tag) content expr) :
    Decodes read? (node (tagged tag content) position) expr := by
  have place := Position.read?_toJson fits
  have kind := written_tagged tag decodes.written
  refine .members (by simp [kind, place.written]) fun outer each => ?_
  obtain ⟨lower, rfl, inside⟩ := depth_tagged_le.mp (each ("kind", tagged tag content) (by simp))
  have here := place.reads (lower + 1) (each ("location", position.toJson) (by simp))
  have content : readKind? (lower + 1) position (tagged tag content) = some expr :=
    decodes.reads lower inside
  simp (disch := simp) [read?, slots?_ofMembers, here, content]

mutual

theorem read?_toJson : (expr : Expr) → expr.Fits → Decodes read? expr.toJson expr
  | int position value, fits =>
    read?_tagged fits ⟨written_ofWord value, fun lower _ => by simp [readContent?]⟩
  | float position value, fits =>
    read?_tagged fits.1 ⟨.number fits.2, fun lower _ => by simp [readContent?]⟩
  | bool position value, fits =>
    read?_tagged fits ⟨.bool value, fun lower _ => by simp [readContent?, bool?]⟩
  | str position value, fits | name position value, fits =>
    read?_tagged fits ⟨.text value, fun lower _ => by simp [readContent?]⟩
  | binary position op left right, fits => by
    have first := read?_toJson left fits.2.1
    have second := read?_toJson right fits.2.2
    refine read?_tagged fits.1 (.members (by simp [first.written, second.written])
      fun lower each => ?_)
    simp (disch := simp) [readContent?, slots?_ofMembers,
      first.reads lower (each ("left", _) (by simp)),
      second.reads lower (each ("right", _) (by simp))]
  | unary position _ operand, fits | cast position _ operand, fits => by
    have inner := read?_toJson operand fits.2
    refine read?_tagged fits.1 (.members (by simp [inner.written]) fun lower each => ?_)
    simp (disch := simp) [readContent?, slots?_ofMembers,
      inner.reads lower (each ("operand", _) (by simp))]
  | call position callee arguments, fits => by
    have inner := readList?_listToJson arguments fits.2
    refine read?_tagged fits.1 (.members (by simp [inner.written]) fun lower each => ?_)
    simp (disch := simp) [readContent?, slots?_ofMembers,
      inner.reads lower (each ("arguments", _) (by simp))]
  | index position owner element, fits => by
    have inner := read?_toJson element fits.2
    refine read?_tagged fits.1 (.members (by simp [inner.written]) fun lower each => ?_)
    simp (disch := simp) [readContent?, slots?_ofMembers,
      inner.reads lower (each ("index", _) (by simp))]

theorem decodes_listToJson : (exprs : List Expr) → FitsList exprs →
    List.Forall₂ (Decodes read?) (listToJson exprs) exprs
  | [], _ => .nil
  | expr :: rest, fits => .cons (read?_toJson expr fits.1) (decodes_listToJson rest fits.2)

theorem readList?_listToJson (exprs : List Expr) (fits : FitsList exprs) :
    Decodes readList? (.array (listToJson exprs)) exprs :=
  .list (fun _ _ => rfl) (decodes_listToJson exprs fits)

end

theorem toJson_ne_null (expr : Expr) : expr.toJson ≠ .null := by
  cases expr <;> nofun

theorem nullable_ofOption : (value : Option Expr) → FitsOption value →
    Decodes (fun levels json => Slot.nullable (read? levels) (.given json))
      (ofOption toJson value) value
  | none, _ => .absent
  | some expr, fits => (read?_toJson expr (fits expr rfl)).nullable expr.toJson_ne_null

end Expr

/-! ## Statements -/

theorem Parameter.read?_toJson (parameter : Parameter) :
    Decodes read? parameter.toJson parameter := by
  refine .members (by simp) fun lower _ => ?_
  simp (disch := simp) [read?, slots?_ofMembers]

namespace Stmt

theorem read?_node {stmt : Stmt} (fits : position.Fits)
    (decodes : Decodes (readKind? · position) kind stmt) :
    Decodes read? (node kind position) stmt := by
  have place := Position.read?_toJson fits
  refine .members (by simp [decodes.written, place.written]) fun lower each => ?_
  have here := place.reads lower (each ("location", position.toJson) (by simp))
  have content := decodes.reads lower (each ("kind", _) (by simp))
  simp (disch := simp) [read?, slots?_ofMembers, here, content]

theorem read?_tagged {stmt : Stmt} (fits : position.Fits)
    (decodes : Decodes (readContent? · position tag) content stmt) :
    Decodes read? (node (tagged tag content) position) stmt := by
  refine read?_node fits ⟨written_tagged tag decodes.written, fun levels room => ?_⟩
  obtain ⟨lower, rfl, inside⟩ := depth_tagged_le.mp room
  exact decodes.reads lower inside

theorem toJson_ifElse (position : Position) (condition : Expr) (thenBranch : List Stmt)
    (elseBranch : Option (List Stmt)) :
    (ifElse position condition thenBranch elseBranch).toJson =
      .node (.tagged "If" (.ofMembers
        [("condition", condition.toJson), ("then_branch", .array (listToJson thenBranch)),
          ("else_branch", .ofOption (fun body => .array (listToJson body)) elseBranch)]))
        position := by
  cases elseBranch <;> simp [toJson, ofOption]

theorem toJson_forLoop (position : Position) (start : Option Stmt) (condition : Option Expr)
    (update : Option Stmt) (body : List Stmt) :
    (forLoop position start condition update body).toJson =
      .node (.tagged "For" (.ofMembers
        [("init", .ofOption toJson start), ("condition", .ofOption Expr.toJson condition),
          ("update", .ofOption toJson update), ("body", .array (listToJson body))])) position := by
  cases start <;> cases update <;> simp [toJson, ofOption]

theorem toJson_ne_null (stmt : Stmt) : stmt.toJson ≠ .null := by
  cases stmt with
  | ifElse => rw [toJson_ifElse]; nofun
  | forLoop => rw [toJson_forLoop]; nofun
  | _ => nofun

theorem fits_ifElse {condition : Expr} {thenBranch : List Stmt} {elseBranch : Option (List Stmt)} :
    (ifElse position condition thenBranch elseBranch).Fits ↔
      position.Fits ∧ condition.Fits ∧ FitsList thenBranch ∧
        ∀ body ∈ elseBranch, FitsList body := by
  cases elseBranch <;> simp [Fits]

theorem fits_forLoop {start : Option Stmt} {condition : Option Expr} {update : Option Stmt}
    {body : List Stmt} :
    (forLoop position start condition update body).Fits ↔
      position.Fits ∧ (∀ stmt ∈ start, stmt.Fits) ∧ Expr.FitsOption condition ∧
        (∀ stmt ∈ update, stmt.Fits) ∧ FitsList body := by
  cases start <;> cases update <;> simp [Fits]

mutual

theorem read?_toJson : (stmt : Stmt) → stmt.Fits → Decodes read? stmt.toJson stmt
  | varDecl position name type initial, fits => by
    have inner := Expr.nullable_ofOption initial fits.2
    refine read?_tagged fits.1 (.members (by simp [inner.written]) fun lower each => ?_)
    simp (disch := simp) [readContent?, slots?_ofMembers,
      inner.reads lower (each ("initializer", ofOption Expr.toJson initial) (by simp))]
  | arrayDecl position name element size elements, fits => by
    have inner := Expr.readList?_listToJson elements fits.2.2
    refine read?_tagged fits.1 (.members (by simp [inner.written]) fun lower each => ?_)
    simp (disch := simp) [readContent?, slots?_ofMembers, count64?_ofNat fits.2.1,
      inner.reads lower (each ("elements", _) (by simp))]
  | assign position name value, fits => by
    have inner := value.read?_toJson fits.2
    refine read?_tagged fits.1 (.members (by simp [inner.written]) fun lower each => ?_)
    simp (disch := simp) [readContent?, slots?_ofMembers,
      inner.reads lower (each ("value", _) (by simp))]
  | indexAssign position owner index value, fits => by
    have first := index.read?_toJson fits.2.1
    have second := value.read?_toJson fits.2.2
    refine read?_tagged fits.1 (.members (by simp [first.written, second.written])
      fun lower each => ?_)
    simp (disch := simp) [readContent?, slots?_ofMembers,
      first.reads lower (each ("index", _) (by simp)),
      second.reads lower (each ("value", _) (by simp))]
  | ifElse position condition thenBranch elseBranch, fits => by
    rw [toJson_ifElse]
    obtain ⟨place, fitsTest, fitsThen, fitsElse⟩ := fits_ifElse.mp fits
    have test := condition.read?_toJson fitsTest
    have first := readList?_listToJson thenBranch fitsThen
    have second : Decodes (fun levels json => Slot.nullable (readList? levels) (.given json))
        (ofOption (fun body => .array (listToJson body)) elseBranch) elseBranch := by
      cases elseBranch with
      | none => exact .absent
      | some body => exact (readList?_listToJson body (fitsElse body rfl)).nullable nofun
    refine read?_tagged place (.members (by simp [test.written, first.written, second.written])
      fun lower each => ?_)
    simp (disch := simp) [readContent?, slots?_ofMembers,
      test.reads lower (each ("condition", _) (by simp)),
      first.reads lower (each ("then_branch", _) (by simp)),
      second.reads lower (each ("else_branch", ofOption _ elseBranch) (by simp))]
  | whileLoop position condition body, fits => by
    have test := condition.read?_toJson fits.2.1
    have inner := readList?_listToJson body fits.2.2
    refine read?_tagged fits.1 (.members (by simp [test.written, inner.written])
      fun lower each => ?_)
    simp (disch := simp) [readContent?, slots?_ofMembers,
      test.reads lower (each ("condition", _) (by simp)),
      inner.reads lower (each ("body", _) (by simp))]
  | forLoop position start condition update body, fits => by
    rw [toJson_forLoop]
    obtain ⟨place, fitsStart, fitsTest, fitsUpdate, fitsBody⟩ := fits_forLoop.mp fits
    have first := nullable_ofOption start fitsStart
    have test := Expr.nullable_ofOption condition fitsTest
    have last := nullable_ofOption update fitsUpdate
    have inner := readList?_listToJson body fitsBody
    refine read?_tagged place (.members
      (by simp [first.written, test.written, last.written, inner.written]) fun lower each => ?_)
    simp (disch := simp) [readContent?, slots?_ofMembers,
      first.reads lower (each ("init", ofOption toJson start) (by simp)),
      test.reads lower (each ("condition", ofOption Expr.toJson condition) (by simp)),
      last.reads lower (each ("update", ofOption toJson update) (by simp)),
      inner.reads lower (each ("body", _) (by simp))]
  | block position body, fits => by
    have inner := readList?_listToJson body fits.2
    refine read?_tagged fits.1 ⟨inner.written, fun levels room => ?_⟩
    obtain ⟨lower, rfl, -⟩ := depth_array_le.mp room
    exact congrArg (Option.map _) (inner.reads (lower + 1) room)
  | functionDecl position name parameters result body, fits => by
    have first : Decodes Parameter.readList? (.array (parameters.map Parameter.toJson))
        parameters := .map (fun _ _ => rfl) fun parameter _ => parameter.read?_toJson
    have inner := readList?_listToJson body fits.2
    refine read?_tagged fits.1 (.members (by simp [first.written, inner.written])
      fun lower each => ?_)
    simp (disch := simp) [readContent?, slots?_ofMembers,
      first.reads lower (each ("parameters", _) (by simp)),
      inner.reads lower (each ("body", _) (by simp))]
  | ret position none, fits =>
    read?_tagged fits.1 ⟨.null, fun lower _ => by simp [readContent?, ofOption]⟩
  | ret position (some value), fits => by
    have inner := value.read?_toJson (fits.2 value rfl)
    refine read?_tagged fits.1 ⟨inner.written, fun lower inside => ?_⟩
    simp [readContent?, ofOption, value.toJson_ne_null, inner.reads lower inside]
  | print position value, fits | println position value, fits | expr position value, fits => by
    have inner := value.read?_toJson fits.2
    refine read?_tagged fits.1 ⟨inner.written, fun lower inside => ?_⟩
    simp [readContent?, inner.reads lower inside]
  | breakLoop position, fits | continueLoop position, fits =>
    read?_node fits ⟨.text _, fun lower _ => by simp [ofText, readKind?]⟩

theorem nullable_ofOption : (value : Option Stmt) → (∀ stmt ∈ value, stmt.Fits) →
    Decodes (fun levels json => Slot.nullable (read? levels) (.given json))
      (ofOption toJson value) value
  | none, _ => .absent
  | some stmt, fits => (read?_toJson stmt (fits stmt rfl)).nullable stmt.toJson_ne_null

theorem decodes_listToJson : (stmts : List Stmt) → FitsList stmts →
    List.Forall₂ (Decodes read?) (listToJson stmts) stmts
  | [], _ => .nil
  | stmt :: rest, fits => .cons (read?_toJson stmt fits.1) (decodes_listToJson rest fits.2)

theorem readList?_listToJson (stmts : List Stmt) (fits : FitsList stmts) :
    Decodes readList? (.array (listToJson stmts)) stmts :=
  .list (fun _ _ => rfl) (decodes_listToJson stmts fits)

end

end Stmt

theorem Tree.read?_toJson {tree : Tree} (fits : Stmt.FitsList tree.statements) :
    Decodes read? tree.toJson tree := by
  have inner := Stmt.readList?_listToJson tree.statements fits
  refine .members (by simpa using inner.written) fun lower each => ?_
  simp (disch := simp) [read?, slots?_ofMembers,
    inner.reads lower (each ("statements", _) (by simp))]

end ArmBackend
