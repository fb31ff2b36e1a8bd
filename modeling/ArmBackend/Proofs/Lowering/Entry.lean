import ArmBackend.Proofs.Lowering.Call

/-!
# Code of the entry function

The statements at top level have the code of statements, except that the declaration
of a shared name fills the memory of the program and declares nothing.
-/

namespace ArmBackend

open List

/-- A declaration of a name that is shared. -/
def Stmt.sharesName (shared : String → Bool) : Stmt → Bool
  | .varDecl _ name _ _ => shared name
  | .arrayDecl _ name _ _ _ => shared name
  | _ => false

/-- The names that the statements at top level declare in the entry function. -/
def Stmt.entryNames (shared : String → Bool) (stmts : List Stmt) : List String :=
  stmts.flatMap fun stmt => if stmt.sharesName shared then [] else stmt.declares

/-- The declarations among the statements at top level that the entry function keeps. -/
def Stmt.entryBindings (shared : String → Bool) (stmts : List Stmt) : Ir.Bindings :=
  stmts.flatMap fun stmt =>
    if stmt.sharesName shared then [] else stmt.gather fun stmt => stmt.binding?.toList

theorem Stmt.names_entryBindings (shared : String → Bool) (stmts : List Stmt) :
    (entryBindings shared stmts).map Prod.fst = entryNames shared stmts := by
  simp only [entryBindings, entryNames, map_flatMap, apply_ite (List.map Prod.fst), map_nil,
    names_gather]

variable {config : Config} {draft final : Draft} {code : List Instr} {stmts : List Stmt}
  {place : Place} {state : State} {stmt : Stmt} {world : World}

namespace Ir

open Source (Value World Code Handlers Run Flow)

/-- The names that are kept in the memory of the program. -/
def Place.isShared (place : Place) (name : String) : Bool :=
  (place.around.global? name).isSome

theorem Place.sharesName_eq (place : Place) (stmt : Stmt) :
    stmt.sharesName place.isShared = stmt.declaresGlobal place := by
  cases stmt <;> rfl

theorem lowerEntry_cons {rest : List Stmt}
    (lowered : lowerEntry place draft (stmt :: rest) = .ok (code, final)) :
    ∃ first others between, lowerEntryStmt place draft stmt = .ok (first, between) ∧
      lowerEntry place between rest = .ok (others, final) ∧ code = first ++ others := by
  rw [lowerEntry] at lowered
  obtain ⟨⟨first, between⟩, head, more⟩ := bind_ok lowered
  obtain ⟨⟨others, last⟩, tail, same⟩ := bind_ok more
  cases same
  exact ⟨first, others, between, head, tail, rfl⟩

theorem lowerEntryStmt_of_not (own : stmt.sharesName place.isShared = false) (draft : Draft) :
    lowerEntryStmt place draft stmt = lowerStmt place draft stmt := by
  unfold lowerEntryStmt
  split
  · exact if_neg (Bool.eq_false_iff.mp own)
  · exact if_neg (Bool.eq_false_iff.mp own)
  · rfl

section

variable {place : Place} {name : String} (shared : place.isShared name = true) (draft : Draft)
  (position : Position) (type : DataType)
include shared

theorem lowerEntryStmt_varDecl (initial : Option Expr) :
    lowerEntryStmt place draft (.varDecl position name type initial) =
      .ok ((lowerStore position.line (.global name type) (lowerInitial place draft type initial)).1,
        draft.withContext (lowerStore position.line (.global name type)
          (lowerInitial place draft type initial)).2) :=
  if_pos shared

theorem lowerEntryStmt_arrayDecl (size : Nat) (elements : List Expr) :
    lowerEntryStmt place draft (.arrayDecl position name type size elements) =
      .ok ((lowerElements place draft.bindings position.line name type 0 draft.context elements).1,
        draft.withContext (lowerElements place draft.bindings position.line name type 0
          draft.context elements).2) :=
  if_pos shared

end

theorem lowerEntryStmt_lowers (lowered : lowerEntryStmt place draft stmt = .ok (code, final)) :
    draft.Lowers (if stmt.sharesName place.isShared then []
      else stmt.gather fun stmt => stmt.binding?.toList) code final := by
  cases shared : stmt.sharesName place.isShared with
  | false =>
    rw [lowerEntryStmt_of_not shared] at lowered
    exact lowerStmt_lowers place _ _ _ stmt lowered
  | true =>
    cases stmt with
    | varDecl position name type initial =>
      rw [lowerEntryStmt_varDecl shared] at lowered
      cases lowered
      exact .of_tame (lowerStore_tame (lowerInitial_tame place draft type initial) _ _)
    | arrayDecl position name type size elements =>
      rw [lowerEntryStmt_arrayDecl shared] at lowered
      cases lowered
      exact .of_tame (lowerElements_tame ..)
    | _ => cases shared

theorem lowerEntry_lowers (lowered : lowerEntry place draft stmts = .ok (code, final)) :
    draft.Lowers (Stmt.entryBindings place.isShared stmts) code final := by
  induction stmts generalizing draft code with
  | nil =>
    cases lowered
    exact .refl _
  | cons stmt rest ih =>
    obtain ⟨first, others, between, one, two, rfl⟩ := lowerEntry_cons lowered
    exact (lowerEntryStmt_lowers one).append (ih two)

/-- The entry code and the source agree on the names that are shared. -/
structure Place.Shares (place : Place) (code : Code) (stmts : List Stmt) : Prop where
  names : ∀ name, place.isShared name = (code.shared? name).isSome
  /-- a shared name stands for its declaration -/
  declared : ∀ stmt ∈ stmts, ∀ declaration, TopLevel.ofStmt? stmt = some declaration →
    place.isShared declaration.name = true → code.shared? declaration.name = some declaration

section

variable {stage : Stage} {code : Code} {place : Place} {handlers : Handlers} {fuel : Nat}
  {rest instrs : List Instr}

variable (fits : stage.Fits code place) (entry : place.result = .int)
  (handled : HandlersCovered stage.env stage.program code fuel handlers)
include fits entry handled

theorem execEntryStmt_covered (shares : place.Shares code [stmt])
    (lowered : lowerEntryStmt place draft stmt = .ok (instrs, final))
    (admits : stage.Admits code final) (inside : instrs ++ rest <:+ stage.function.code)
    (related : Related stage.function draft.bindings world state)
    (here : stage.At config (instrs ++ rest) state world.output) :
    stage.Covers fuel config (Source.execEntryStmt code handlers stmt world)
      (stage.Ends draft.context.loops final.bindings rest) := by
  cases shared : stmt.sharesName place.isShared with
  | false =>
    have same : Source.execEntryStmt code handlers stmt = Source.exec code handlers .int stmt := by
      unfold Source.execEntryStmt
      cases stmt with
      | varDecl position name type initial | arrayDecl position name type size elements =>
        exact if_neg fun found => by
          rw [← shares.names] at found
          exact Bool.eq_false_iff.mp shared found
      | _ => rfl
    rw [lowerEntryStmt_of_not shared] at lowered
    rw [same, ← entry]
    exact exec_covered fits handled stmt admits inside lowered related here
  | true =>
    cases stmt with
    | varDecl position name type initial =>
      rw [lowerEntryStmt_varDecl shared] at lowered
      cases lowered
      rw [Source.execEntryStmt, if_pos ((shares.names name).symm.trans shared)]
      refine (initialize_covered fits handled.call related rfl admits.avoids admits.strings
        here).bind ?_
      rintro value later after ⟨rfl, middle, there, before⟩
      exact ⟨0, middle.set (.global name) value.bits, there, before.assignGlobal name value.bits⟩
    | arrayDecl position name type size elements =>
      rw [lowerEntryStmt_arrayDecl shared] at lowered
      cases lowered
      have avoids : Avoids code draft.bindings := admits.avoids
      have known : code.shared? name = some ⟨name, type, some size⟩ :=
        shares.declared _ (mem_singleton.mpr rfl) ⟨name, type, some size⟩ rfl shared
      rw [Source.execEntryStmt, if_pos ((shares.names name).symm.trans shared)]
      have resolved : (place.resolve draft.bindings name).type = type := by
        rw [resolve_shared fits avoids known]
        rfl
      exact (fill_covered fits avoids related handled.call resolved admits.strings
        here).bind fun _ _ _ ends => ⟨0, ends⟩
    | _ => cases shared

theorem execEntry_covered (shares : place.Shares code stmts)
    (lowered : lowerEntry place draft stmts = .ok (instrs, final))
    (admits : stage.Admits code final) (inside : instrs ++ rest <:+ stage.function.code)
    (related : Related stage.function draft.bindings world state)
    (here : stage.At config (instrs ++ rest) state world.output) :
    stage.Covers fuel config (Source.execEntry code handlers stmts world)
      (stage.Ends draft.context.loops final.bindings rest) := by
  induction stmts generalizing draft world state config instrs with
  | nil =>
    cases lowered
    exact ⟨0, state, here, related⟩
  | cons stmt stmts ih =>
    obtain ⟨first, others, between, one, two, rfl⟩ := lowerEntry_cons lowered
    have lowers := lowerEntry_lowers two
    have head : place.Shares code [stmt] := ⟨shares.names, fun other member =>
      shares.declared other (mem_singleton.mp member ▸ mem_cons_self ..)⟩
    have tail : place.Shares code stmts := ⟨shares.names, fun other member =>
      shares.declared other (mem_cons_of_mem _ member)⟩
    rw [append_assoc] at here inside
    rw [Source.execEntry]
    refine (execEntryStmt_covered fits entry handled head one (admits.before lowers) inside related
      here).andThen lowers.suffix admits.distinct fun world state config _ there later => ?_
    have covers := ih tail two (suffix_behind inside) later there
    rwa [(lowerEntryStmt_lowers one).loops] at covers

end

end Ir

end ArmBackend
