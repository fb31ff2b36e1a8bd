import ArmBackend.Proofs.Input.Trees

/-!
# Written inputs are read back

The decoder undoes the encoder on every input whose numbers have a place in the document
and whose document does not nest too deep.  The document itself is read back from its
text by every faithful library, because it has nothing in it but texts with characters,
integers of 64 bits and finite reals.
-/

namespace ArmBackend

open List

open Json

/-- Counts and positions in lists have 64 bits. -/
def SymbolKind.Fits : SymbolKind → Prop
  | .variable => True
  | .parameter count | .array count | .function count => count < Nat.pow 2 64

structure Symbol.Fits (symbol : Symbol) : Prop where
  kind : symbol.kind.Fits
  line : symbol.line < Nat.pow 2 32

namespace Scope

mutual

def Fits : Scope → Prop
  | mk _ _ symbols children => (∀ symbol ∈ symbols, symbol.Fits) ∧ FitsList children

def FitsList : List Scope → Prop
  | [] => True
  | scope :: rest => scope.Fits ∧ FitsList rest

end

end Scope

/-- Every number of the input has a place in a document. -/
structure Input.Fits (input : Input) : Prop where
  tree : Stmt.FitsList input.tree.statements
  scopes : input.scopes.root.Fits
  findings : ∀ finding ∈ input.findings, finding.position.Fits

@[simp]
theorem ScopeKind.ofName?_name (kind : ScopeKind) : ofName? kind.name = some kind := by
  cases kind <;> rfl

@[simp]
theorem FindingStage.ofName?_name (stage : FindingStage) : ofName? stage.name = some stage := by
  cases stage <;> rfl

/-! ## Scopes and findings -/

theorem Json.onlyCount?_ofNat (name : String) {count : Nat} (fits : count < Nat.pow 2 64) :
    Decodes (onlyCount? name) (.ofMembers [(name, .ofNat count)]) count := by
  refine .members (by simp) fun lower _ => ?_
  simp (disch := simp) [onlyCount?, slots?_ofMembers, count64?_ofNat fits]

theorem SymbolKind.read?_toJson {kind : SymbolKind} (fits : kind.Fits) :
    Decodes read? kind.toJson kind := by
  cases kind with
  | «variable» => exact ⟨.text _, fun levels _ => by rw [toJson, ofText, read?]⟩
  | parameter count | array count | function count =>
    have inner (name : String) := onlyCount?_ofNat name fits
    refine ⟨written_tagged _ (inner _).written, fun levels room => ?_⟩
    obtain ⟨lower, rfl, inside⟩ := depth_tagged_le.mp room
    exact congrArg (Option.map _) ((inner _).reads lower inside)

theorem Symbol.read?_toJson {symbol : Symbol} (fits : symbol.Fits) :
    Decodes read? symbol.toJson symbol := by
  have kind := SymbolKind.read?_toJson fits.kind
  refine .members (by simp [kind.written]) fun lower each => ?_
  simp (disch := simp) [read?, slots?_ofMembers, count32?_ofNat fits.line,
    kind.reads lower (each ("kind", symbol.kind.toJson) (by simp))]

namespace Scope

mutual

theorem read?_toJson : (scope : Scope) → scope.Fits → Decodes read? scope.toJson scope
  | mk kind name symbols children, fits => by
    have first : Decodes Symbol.readList? (.array (symbols.map Symbol.toJson)) symbols :=
      .map (fun _ _ => rfl) fun symbol member => Symbol.read?_toJson (fits.1 symbol member)
    have inner : Decodes readList? (.array (listToJson children)) children :=
      .list (fun _ _ => rfl) (decodes_listToJson children fits.2)
    refine .members (by simp [first.written, inner.written]) fun lower each => ?_
    simp (disch := simp) [read?, slots?_ofMembers,
      first.reads lower (each ("symbols", _) (by simp)),
      inner.reads lower (each ("children", _) (by simp))]

theorem decodes_listToJson : (scopes : List Scope) → FitsList scopes →
    Forall₂ (Decodes read?) (listToJson scopes) scopes
  | [], _ => .nil
  | scope :: rest, fits => .cons (read?_toJson scope fits.1) (decodes_listToJson rest fits.2)

end

end Scope

theorem ScopeTrace.read?_toJson {trace : ScopeTrace} (fits : trace.root.Fits) :
    Decodes read? trace.toJson trace := by
  have inner := trace.root.read?_toJson fits
  refine .members (by simpa using inner.written) fun lower each => ?_
  simp (disch := simp) [read?, slots?_ofMembers, inner.reads lower (each ("root", _) (by simp))]

theorem Finding.read?_toJson {finding : Finding} (fits : finding.position.Fits) :
    Decodes read? finding.toJson finding := by
  have place := Position.read?_toJson fits
  refine .members (by simp [place.written, Written.bool]) fun lower each => ?_
  simp (disch := simp) [read?, slots?_ofMembers, bool?,
    place.reads lower (each ("location", finding.position.toJson) (by simp))]

theorem Input.read?_toJson {input : Input} (fits : input.Fits) :
    Decodes read? input.toJson input := by
  have tree := Tree.read?_toJson fits.tree
  have scopes := ScopeTrace.read?_toJson fits.scopes
  have findings : Decodes Finding.readList? (.array (input.findings.map Finding.toJson))
      input.findings := .map (fun _ _ => rfl) fun finding member =>
    Finding.read?_toJson (fits.findings finding member)
  refine .members (by simp [tree.written, scopes.written, findings.written]) fun lower each => ?_
  simp (disch := simp) [read?, slots?_ofMembers,
    tree.reads lower (each ("tree", input.tree.toJson) (by simp)),
    scopes.reads lower (each ("scopes", input.scopes.toJson) (by simp)),
    findings.reads lower (each ("diagnostics", _) (by simp))]

/--
With a faithful library an input is read back from what is written for it, whatever
statements, scopes and findings it has, if its numbers have a place in the document and the
document nests no deeper than the reader follows.
-/
theorem Input.parse?_write {library : Library} (faithful : library.Faithful) (input : Input)
    (fits : input.Fits) (shallow : input.toJson.depth ≤ 127) :
    Input.parse? library (input.write library) = some input := by
  have decodes := read?_toJson fits
  rw [parse?, write, faithful _ decodes.written shallow]
  exact decodes.reads _ shallow

/-- A loop in a function, a text with a quote and a control character, and `-0.1`. -/
def Input.sample : Input where
  tree := ⟨[
    .functionDecl ⟨1, 1⟩ "scale" [⟨"factor", .float⟩] .float [
      .forLoop ⟨2, 3⟩ (some (.varDecl ⟨2, 8⟩ "i" .int none)) none
        (some (.assign ⟨2, 20⟩ "i" (.int ⟨2, 24⟩ (-1)))) [.breakLoop ⟨3, 5⟩],
      .ret ⟨4, 3⟩ (some (.binary ⟨4, 17⟩ .mul (.name ⟨4, 10⟩ "factor")
        (.float ⟨4, 19⟩ ⟨0xbfb999999999999a⟩)))],
    .ifElse ⟨6, 1⟩ (.bool ⟨6, 4⟩ true)
      [.println .unknown (.str .unknown (String.ofList ['"', 'é', Char.ofNat 1]))] (some [])]⟩
  scopes := .ofGlobal [⟨"scale", .float, .function 1, 1⟩]
    [.mk .function "scale" [⟨"factor", .float, .parameter 0, 1⟩, ⟨"i", .int, .variable, 2⟩] []]
  findings := [⟨.grammar, "missing newline", ⟨6, 40⟩, true⟩]

theorem Input.fits_sample : Input.sample.Fits where
  tree := by
    have place : ∀ line < 100, ∀ column < 100, Position.Fits ⟨line, column⟩ :=
      fun _ line _ column => ⟨Nat.lt_trans line (by decide), Nat.lt_trans column (by decide)⟩
    have nowhere : Position.unknown.Fits := place 0 (by decide) 0 (by decide)
    have tenth : Binary64.Finite ⟨0xbfb999999999999a⟩ := by
      unfold Binary64.Finite
      decide
    simp [sample, Stmt.FitsList, Stmt.Fits, Expr.Fits, Expr.FitsOption, place, nowhere]
    exact tenth
  scopes := by
    simp only [sample, ScopeTrace.ofGlobal, Scope.Fits, Scope.FitsList, forall_mem_cons]
    exact ⟨⟨⟨show 1 < Nat.pow 2 64 by decide, by decide⟩, forall_mem_nil _⟩,
      ⟨⟨⟨show 0 < Nat.pow 2 64 by decide, by decide⟩, ⟨trivial, by decide⟩, forall_mem_nil _⟩,
        trivial⟩, trivial⟩
  findings := by
    simp only [sample, forall_mem_cons]
    exact ⟨⟨by decide, by decide⟩, forall_mem_nil _⟩

/-- The one real in the sample has its standard numeral. -/
theorem Input.parse?_write_sample :
    NumberFormat.restoring.real ⟨0xbfb999999999999a⟩ = realLayout.numeral ⟨0xbfb999999999999a⟩ ∧
      Input.parse? .restoring (Input.sample.write .restoring) = some Input.sample :=
  ⟨by decide +kernel,
    Input.parse?_write Library.faithful_restoring Input.sample Input.fits_sample (by decide)⟩

end ArmBackend
