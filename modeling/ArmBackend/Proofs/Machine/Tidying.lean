import ArmBackend.Proofs.Machine.Execution
import ArmBackend.Proofs.Machine.Rewriting
import Mathlib.Data.List.Chain
import Mathlib.Data.List.Forall2
import Mathlib.Data.Option.Basic

/-!
# Tidying keeps the run

Code is run abreast of what the window rules make of it.  A dropped jump and the label
behind it are one step on either side.  A stretch between boundaries is replaced by one
that leaves the same state, so the two runs meet again at every boundary.

The rule for moves back is wrong where the first move goes to the zero register: that
register does not keep the value, and the move back would clear the source.  Such a pair
stands in the code, or it comes about as moves of registers to themselves are dropped and a
load of the zero register is turned into a move.
-/

namespace ArmBackend.Machine

open List

variable {instr : Instr} {body code rest first second tidied other : List Instr} {name : String}

theorem afterLabel_of_nodup (distinct : (labelsOf body).Nodup)
    (inside : .label name :: rest <:+ body) : afterLabel name body = some rest := by
  obtain ⟨before, rfl⟩ := inside
  have outside : Instr.label name ∉ before := by
    intro member
    rw [labelsOf, filterMap_append] at distinct
    exact (nodup_append.mp distinct).2.2 name (mem_labelsOf.mpr member) name
      (mem_labelsOf.mpr (mem_cons_self ..)) rfl
  clear distinct
  induction before with
  | nil => rw [nil_append, afterLabel, if_pos rfl]
  | cons instr before ih =>
    rw [mem_cons, not_or] at outside
    rw [cons_append, afterLabel, if_neg fun same => outside.1 same.symm]
    exact ih outside.2

theorem afterLabel_suffix (found : afterLabel name body = some rest) :
    rest <:+ body := by
  induction body with
  | nil => cases found
  | cons instr body ih =>
    rw [afterLabel] at found
    split at found
    · cases found
      exact suffix_cons instr rest
    · exact (ih found).trans (suffix_cons instr body)

/-! ## Jumps to the next label -/

/-- Code without its jumps to the label behind them. -/
def withoutShortJumps (code : List Instr) : List Instr :=
  (dropJumpsToNext code).code

theorem withoutShortJumps_cons (instr : Instr) (rest : List Instr) :
    (∃ target, instr = .b target ∧ rest.head? = some (.label target) ∧
      withoutShortJumps (instr :: rest) = withoutShortJumps rest) ∨
    withoutShortJumps (instr :: rest) = instr :: withoutShortJumps rest := by
  cases instr with
  | b target =>
    by_cases next : rest.head? = some (.label target)
    · refine .inl ⟨target, rfl, next, ?_⟩
      simp only [withoutShortJumps, dropJumpsToNext, if_pos next]
    · refine .inr ?_
      simp only [withoutShortJumps, dropJumpsToNext, if_neg next]
  | _ => exact .inr rfl

theorem afterLabel_withoutShortJumps (name : String) (code : List Instr) :
    afterLabel name (withoutShortJumps code) =
      (afterLabel name code).map withoutShortJumps := by
  induction code with
  | nil => rfl
  | cons instr rest ih =>
    rw [afterLabel]
    rcases withoutShortJumps_cons instr rest with ⟨target, rfl, _, dropped⟩ | kept
    · rw [dropped, ih, if_neg Instr.noConfusion]
    · rw [kept, afterLabel, ih]
      split <;> rfl

/-- Dropping jumps to the next label keeps the run. -/
theorem sameRun_withoutShortJumps (distinct : (labelsOf body).Nodup) (world : World)
    (state : State) : SameRun world body (withoutShortJumps body) state := by
  let rel (rest rest' : List Instr) : Prop := rest <:+ body ∧ rest' = withoutShortJumps rest
  have begins : rel body (withoutShortJumps body) := ⟨suffix_refl body, rfl⟩
  refine .of_abreast begins ?_ state
  rintro rest _ state calls ⟨inside, rfl⟩
  refine ⟨0, 0, ?_⟩
  cases rest with
  | nil => exact .ended rfl
  | cons instr rest =>
    have later : rest <:+ body := (suffix_cons instr rest).trans inside
    simp only [Config.run]
    rcases withoutShortJumps_cons instr rest with ⟨target, rfl, next, dropped⟩ | kept
    · -- The jump on one side and the label on the other lead behind the label.
      rw [dropped]
      cases rest with
      | nil => cases next
      | cons label rest =>
        cases next
        have lands := afterLabel_of_nodup distinct later
        simp only [Config.step, Instr.control, Config.goto, lands]
        exact .running ⟨(suffix_cons _ rest).trans later, rfl⟩ state calls
    · rw [kept]
      simp only [Config.step]
      cases instr.control state with
      | next => exact .running ⟨later, rfl⟩ _ calls
      | jump target =>
        simp only [Config.goto, afterLabel_withoutShortJumps]
        cases found : afterLabel target body with
        | none => exact .ended rfl
        | some there => exact .running ⟨afterLabel_suffix found, rfl⟩ state calls
      | call symbol => exact .running ⟨later, rfl⟩ _ _
      | ret => exact .ended rfl

/-! ## The zero register -/

namespace Instr

/-- A move from the zero register clears a register behind a move of that register to the zero
register, or behind a load of it from a slot, which may become such a move. -/
def clearsBehind : Instr → Instr → Bool
  | mov .zr source, mov dest .zr => dest == source
  | ldur .zr base _, mov _ .zr => base == .fp
  | _, _ => false

end Instr

/-- Nothing clears a register behind what stands before it, moves of registers to themselves not
counted. -/
abbrev SparesZero (code : List Instr) : Prop :=
  (code.filter fun instr => !instr.isSelfMove).IsChain fun one two => one.clearsBehind two = false

namespace SparesZero

theorem of_part {part : List Instr} (spares : SparesZero code) (inside : part <:+: code) :
    SparesZero part :=
  IsChain.infix spares (inside.filter _)

theorem cons_cons {one two : Instr} (kept : one.isSelfMove = false)
    (kept' : two.isSelfMove = false) : SparesZero (one :: two :: rest) ↔
      one.clearsBehind two = false ∧ SparesZero (two :: rest) := by
  simp [SparesZero, kept, kept']

theorem cons_idle {idle : Instr} (self : idle.isSelfMove = true) :
    SparesZero (instr :: idle :: rest) ↔ SparesZero (instr :: rest) := by
  simp [SparesZero, filter_cons, self]

theorem target_ne {dest source : Reg} (spares : SparesZero [.mov dest source, .mov source dest])
    (differ : source ≠ dest) : dest ≠ .zr := by
  rintro rfl
  simp [SparesZero, Instr.isSelfMove, Instr.clearsBehind, differ, differ.symm] at spares

theorem clearsBehind_mov {dest : Reg} (source : Reg) (other : dest ≠ .zr) (instr : Instr) :
    (Instr.mov dest source).clearsBehind instr = false := by
  cases dest <;> first | rfl | exact absurd rfl other

/-- What is safe behind a load is safe behind the move that the load becomes. -/
theorem clearsBehind_load {dest : Reg} {offset : Int} (source : Reg)
    (safe : (Instr.ldur dest .fp offset).clearsBehind instr = false) :
    (Instr.mov dest source).clearsBehind instr = false := by
  by_cases zero : dest = .zr
  · subst zero
    cases instr with
    | mov _ origin => cases origin <;> first | rfl | cases safe
    | _ => rfl
  · exact clearsBehind_mov source zero instr

/-- A window that is replaced brings no such pair about. -/
theorem rewrite {window replacement before after : List Instr}
    (spares : SparesZero (before ++ (window ++ after))) (rewrites : Rewrites window replacement) :
    SparesZero (before ++ (replacement ++ after)) := by
  have second {one two : Instr} (kept : one.isSelfMove = false) (kept' : two.isSelfMove = false) :
      SparesZero (before ++ ([one, two] ++ after)) ↔ SparesZero (before ++ [one]) ∧
        one.clearsBehind two = false ∧ SparesZero (two :: after) := by
    simp [SparesZero, kept, kept']
  have first {one : Instr} (kept : one.isSelfMove = false) (front : SparesZero (before ++ [one]))
      (safe : ∀ instr, one.clearsBehind instr = false) (back : SparesZero after) :
      SparesZero (before ++ ([one] ++ after)) := by
    simp only [SparesZero, filter_append, filter_cons, kept, Bool.not_false, if_true,
      filter_nil, singleton_append] at front ⊢
    exact isChain_split.mpr ⟨front, isChain_cons.mpr ⟨fun instr _ => safe instr, back⟩⟩
  cases rewrites with
  | selfMove register => simpa [SparesZero, Instr.isSelfMove] using spares
  | reload stored offset =>
    obtain ⟨front, -, back⟩ := (second rfl rfl).mp spares
    exact first rfl front (fun _ => rfl) (back.of_part (suffix_cons ..).isInfix)
  | @storeToLoad stored dest differ offset =>
    have kept : (Instr.mov dest stored).isSelfMove = false := beq_false_of_ne differ.symm
    obtain ⟨front, -, back⟩ := (second rfl rfl).mp spares
    refine (second rfl kept).mpr ⟨front, rfl, ?_⟩
    simp only [SparesZero, filter_cons, kept, Bool.not_false, if_true] at back ⊢
    exact IsChain.cons_of_imp (fun _ safe => clearsBehind_load stored safe) back
  | moveBack dest source =>
    by_cases same : source = dest
    · subst same
      simpa [SparesZero, Instr.isSelfMove] using spares
    · have target := target_ne (spares.of_part ⟨before, after, append_assoc ..⟩) same
      have kept : (Instr.mov dest source).isSelfMove = false := beq_false_of_ne (Ne.symm same)
      have kept' : (Instr.mov source dest).isSelfMove = false := beq_false_of_ne same
      obtain ⟨front, -, back⟩ := (second kept kept').mp spares
      exact first kept front (clearsBehind_mov source target)
        (back.of_part (suffix_cons ..).isInfix)

theorem withoutShortJumps (spares : SparesZero code) :
    SparesZero (Machine.withoutShortJumps code) := by
  -- With an instruction in front, so that the induction knows what stands before the rest.
  suffices behind : ∀ instr : Instr, instr.isSelfMove = false → SparesZero (instr :: code) →
      SparesZero (instr :: Machine.withoutShortJumps code) from
    (behind .ret rfl (isChain_cons.mpr ⟨fun _ _ => rfl, spares⟩)).of_part
      (suffix_cons ..).isInfix
  clear spares
  induction code with
  | nil => exact fun _ _ spares => spares
  | cons next rest ih =>
    intro instr kept spares
    rcases withoutShortJumps_cons next rest with ⟨target, rfl, follows, dropped⟩ | same
    · rw [dropped]
      refine ih instr kept ?_
      cases rest with
      | nil => cases follows
      | cons label rest =>
        cases follows
        have after : instr.clearsBehind (.label target) = false := by
          cases instr <;> simp [Instr.clearsBehind]
        have back := ((cons_cons kept rfl).mp spares).2
        exact (cons_cons kept rfl).mpr ⟨after, ((cons_cons rfl rfl).mp back).2⟩
    · rw [same]
      cases idle : next.isSelfMove with
      | true => exact (cons_idle idle).mpr (ih instr kept ((cons_idle idle).mp spares))
      | false =>
        obtain ⟨safe, back⟩ := (cons_cons kept idle).mp spares
        exact (cons_cons kept idle).mpr ⟨safe, ih next idle back⟩

end SparesZero

/-! ## Stretches of straight code -/

/-- The code has no boundary. -/
def Tame (code : List Instr) : Prop :=
  ∀ instr ∈ code, instr.isBoundary = false

theorem tame_cons : Tame (instr :: rest) ↔ instr.isBoundary = false ∧ Tame rest :=
  forall_mem_cons

theorem tame_append :
    Tame (first ++ second) ↔ Tame first ∧ Tame second :=
  forall_mem_append

/-- Tame code that leaves the same state from every state. -/
structure Tidies (code tidied : List Instr) : Prop where
  effect : ∀ platform state, execAll platform tidied state = execAll platform code state
  tame : Tame tidied

theorem Tidies.refl (tame : Tame code) : Tidies code code :=
  ⟨fun _ _ => rfl, tame⟩

theorem Tidies.trans {third : List Instr} (one : Tidies first second)
    (two : Tidies second third) : Tidies first third :=
  ⟨fun platform state => (two.effect platform state).trans (one.effect platform state), two.tame⟩

theorem Tidies.append {tidied' : List Instr} (one : Tidies first tidied)
    (two : Tidies second tidied') : Tidies (first ++ second) (tidied ++ tidied') := by
  refine ⟨?_, tame_append.mpr ⟨one.tame, two.tame⟩⟩
  intro platform state
  rw [execAll_append, execAll_append, one.effect, two.effect]

/-- A window and its replacement leave the same state. -/
theorem Rewrites.tidies {window replacement : List Instr} (rewrites : Rewrites window replacement)
    (spares : SparesZero window) : Tidies window replacement := by
  have none : Tame [] := nofun
  cases rewrites with
  | selfMove register => exact ⟨fun _ state => (state.set_get register).symm, none⟩
  | reload stored offset =>
    refine ⟨fun platform state => ?_, tame_cons.mpr ⟨rfl, none⟩⟩
    simp only [execAll_cons, execAll_nil, Instr.exec, State.get_store, State.memory_store,
      Memory.load_store]
    exact (State.set_get (state.store _ (state.get stored)) stored).symm
  | storeToLoad _ offset =>
    refine ⟨fun platform state => ?_, tame_cons.mpr ⟨rfl, tame_cons.mpr ⟨rfl, none⟩⟩⟩
    simp only [execAll_cons, execAll_nil, Instr.exec, State.get_store, State.memory_store,
      Memory.load_store]
  | moveBack dest source =>
    refine ⟨fun platform state => ?_, tame_cons.mpr ⟨rfl, none⟩⟩
    simp only [execAll_cons, execAll_nil, Instr.exec]
    -- The move back writes the source with what it holds.
    by_cases same : source = dest
    · subst same
      rw [State.set_get, State.set_get]
    · have target : dest ≠ .zr := spares.target_ne same
      have back := State.set_get (state.set dest (state.get source)) source
      rw [State.get_set_ne _ _ same] at back
      rw [State.get_set_self _ _ _ target]
      exact back.symm

theorem Reduces.tidies {hits : Nat} (reduces : Reduces hits code tidied)
    (tame : Tame code) (spares : SparesZero code) : Tidies code tidied := by
  induction reduces with
  | refl => exact .refl tame
  | @step _ window _ _ before after rewrites _ ih =>
    obtain ⟨front, rest⟩ := tame_append.mp tame
    have back := (tame_append.mp rest).2
    have inside : window <:+: before ++ (window ++ after) := ⟨before, after, append_assoc ..⟩
    have here := (Tidies.refl front).append
      ((rewrites.tidies (spares.of_part inside)).append (.refl back))
    exact here.trans (ih here.tame (spares.rewrite rewrites))

variable (rules : List Rule)

theorem tidies_tidyStretch (tame : Tame code) (spares : SparesZero code) :
    Tidies code (tidyStretch rules code).code := by
  obtain ⟨hits, reduces⟩ := reduces_tidyStretch rules code
  exact reduces.tidies tame spares

/-! ## Whole bodies -/

/-- Codes with the same boundaries and, between these, stretches that do the same. -/
inductive Alike : List Instr → List Instr → Prop where
  | stretch {code tidied : List Instr} (tame : Tame code) (tidies : Tidies code tidied) :
      Alike code tidied
  | boundary {code tidied rest rest' : List Instr} (tame : Tame code)
      (tidies : Tidies code tidied) (instr : Instr) (more : Alike rest rest') :
      Alike (code ++ instr :: rest) (tidied ++ instr :: rest')

theorem afterLabel_tame (tame : Tame code) (name : String) (rest : List Instr) :
    afterLabel name (code ++ rest) = afterLabel name rest := by
  induction code with
  | nil => rfl
  | cons instr code ih =>
    obtain ⟨here, later⟩ := tame_cons.mp tame
    rw [cons_append, afterLabel, if_neg, ih later]
    rintro rfl
    cases here

theorem Alike.afterLabel (alike : Alike body other) (name : String) :
    Option.Rel Alike (afterLabel name body) (afterLabel name other) := by
  induction alike with
  | stretch tame tidies =>
    have one := afterLabel_tame tame name []
    have two := afterLabel_tame tidies.tame name []
    rw [append_nil] at one two
    rw [one, two]
    exact .none
  | boundary tame tidies instr more ih =>
    rw [afterLabel_tame tame, afterLabel_tame tidies.tame, Machine.afterLabel,
      Machine.afterLabel]
    split
    · exact .some more
    · exact ih

theorem Tame.straight (tame : Tame code) : ∀ instr ∈ code, instr.isStraight = true :=
  fun instr member => Instr.isStraight_of_not_isBoundary (tame instr member)

theorem Alike.sameRun (alike : Alike body other) (world : World)
    (state : State) : SameRun world body other state := by
  refine .of_abreast alike ?_ state
  intro rest rest' state calls here
  cases here with
  | stretch tame tidies =>
    refine ⟨rest.length, rest'.length, ?_⟩
    have one := Config.run_straight world body tame.straight [] state calls
    have two := Config.run_straight world other tidies.tame.straight [] state calls
    rw [append_nil] at one two
    rw [Config.run_add, Config.run_add, one, two, tidies.effect]
    exact .ended rfl
  | @boundary code tidied behind behind' tame tidies instr more =>
    refine ⟨code.length, tidied.length, ?_⟩
    rw [Config.run_add, Config.run_add, Config.run_straight world body tame.straight,
      Config.run_straight world other tidies.tame.straight, tidies.effect]
    generalize execAll world.toPlatform code state = reached
    simp only [Config.run, Config.step]
    cases instr.control reached with
    | next => exact .running more _ calls
    | jump target =>
      have targets := alike.afterLabel target
      simp only [Config.goto]
      cases one : Machine.afterLabel target body <;>
        cases two : Machine.afterLabel target other <;> rw [one, two] at targets <;>
        cases targets
      · exact .ended rfl
      · next there => exact .running there reached calls
    | call symbol => exact .running more _ _
    | ret => exact .ended rfl

theorem alike_tidyOthers {others : List (Instr × List Instr)}
    (straight : ∀ entry ∈ others, Tame entry.2 ∧ SparesZero entry.2) (here : Tame code)
    (tidies : Tidies code tidied) :
    Alike (code ++ others.flatMap fun entry => entry.1 :: entry.2)
      (tidied ++ (tidyOthers rules others).code) := by
  induction others generalizing code tidied with
  | nil =>
    rw [flatMap_nil, tidyOthers, append_nil, append_nil]
    exact .stretch here tidies
  | cons entry rest ih =>
    obtain ⟨boundary, stretch⟩ := entry
    obtain ⟨⟨next, spares⟩, later⟩ := forall_mem_cons.mp straight
    rw [flatMap_cons, tidyOthers, cons_append, cons_append]
    exact .boundary here tidies boundary (ih later next (tidies_tidyStretch rules next spares))

theorem alike_tidyCode (spares : SparesZero code) : Alike code (tidyCode rules code).code := by
  obtain ⟨first, others⟩ := between_ofCode code
  have whole := toCode_ofCode code
  rw [Stretches.toCode] at whole
  have here : Tame (Stretches.ofCode code).first := fun instr member => (first instr member).1
  have front : (Stretches.ofCode code).first <:+: code := ⟨[], _, whole⟩
  have straight : ∀ entry ∈ (Stretches.ofCode code).others,
      Tame entry.2 ∧ SparesZero entry.2 := by
    intro entry member
    refine ⟨fun instr inside => ((others entry member).2 instr inside).1, spares.of_part ?_⟩
    have part := infix_of_mem_flatten (mem_map_of_mem (f := fun entry => entry.1 :: entry.2) member)
    exact ((suffix_cons ..).isInfix.trans part).trans ⟨_, [], (append_nil _).trans whole⟩
  have alike := alike_tidyOthers rules straight here
    (tidies_tidyStretch rules here (spares.of_part front))
  rwa [whole] at alike

theorem withoutShortJumps_subset (code : List Instr) : withoutShortJumps code ⊆ code := by
  induction code with
  | nil => exact List.Subset.refl _
  | cons instr rest ih =>
    rcases withoutShortJumps_cons instr rest with ⟨_, _, _, dropped⟩ | kept
    · rw [dropped]
      exact List.Subset.trans ih (subset_cons_self _ _)
    · rw [kept]
      exact cons_subset_cons instr ih

/-- A function after tidying is the same but for its body, and that behaves alike. -/
structure Function.TidiedTo (function tidied : Function) : Prop where
  name : tidied.name = function.name
  frameSize : tidied.frameSize = function.frameSize
  leaf : tidied.leaf = function.leaf
  body : ∀ world state, SameRun world function.body tidied.body state

theorem tidiedTo_tidyFunctions {functions : List Function}
    (distinct : ∀ function ∈ functions, (labelsOf function.body).Nodup)
    (spares : ∀ function ∈ functions, SparesZero function.body) :
    Forall₂ Function.TidiedTo functions (tidyFunctions rules functions).functions := by
  induction functions with
  | nil => exact .nil
  | cons function rest ih =>
    obtain ⟨here, later⟩ := forall_mem_cons.mp distinct
    obtain ⟨spared, spared'⟩ := forall_mem_cons.mp spares
    refine .cons ⟨rfl, rfl, rfl, ?_⟩ (ih later spared')
    intro world state
    exact (sameRun_withoutShortJumps here world state).trans
      ((alike_tidyCode rules spared.withoutShortJumps).sameRun world state)

namespace Program

/--
Tidying keeps what functions do, where no label stands twice in a function and no move from
the zero register clears a register behind a move or load to it; all else about the program
stays as it is.
-/
theorem tidy_keeps_runs (program : Program)
    (distinct : ∀ function ∈ program.functions, (labelsOf function.body).Nodup)
    (spares : ∀ function ∈ program.functions, SparesZero function.body) :
    program.tidy.1.strings = program.strings ∧ program.tidy.1.data = program.data ∧
      List.Forall₂ Function.TidiedTo program.functions program.tidy.1.functions :=
  ⟨rfl, rfl, tidiedTo_tidyFunctions Rule.standard distinct spares⟩

/-- A function that gives every rule something to do. -/
def tangled : Program where
  functions :=
    [{ name := "main"
       body :=
        [.mov (.x 1) (.x 1), .stur (.x 1) .fp (-8), .ldur (.x 2) .fp (-8), .mov (.x 3) (.x 2),
          .mov (.x 2) (.x 3), .b ".L0", .label ".L0", .ret] }]

theorem tangled_keeps_runs :
    tangled.tidy.2.hits = [("remove-self-move", 1), ("forward-store-to-load", 1),
      ("drop-move-back", 1), ("remove-jump-to-next", 1)] ∧
    List.Forall₂ Function.TidiedTo tangled.functions tangled.tidy.1.functions :=
  ⟨by decide, (tidy_keeps_runs tangled (by decide) (by decide)).2.2⟩

/-- A function that clears a register behind a move to the zero register. -/
def clearing : Program where
  functions :=
    [{ name := "main", body := [.mov .zr (.x 1), .mov (.x 1) .zr, .ret] }]

/-- A world in which nothing is computed and no call changes anything. -/
def idleWorld : World where
  symbol _ := 0
  binary _ left _ := left
  negate value := value
  truncate value := value
  multiplySubtract _ _ value := value
  ofInt value := value
  toInt value := value
  compare _ _ := .equal
  callee _ _ state := state

/-- The state in which every word is one. -/
def onesState : State where
  general _ := 1
  stack := 1
  floats _ := 1
  flags := Flags.ofWords 0 0
  memory _ := 1

/-- Without care for the zero register, tidying loses a register's clearing. -/
theorem tidy_loses_clearing :
    (∀ function ∈ clearing.functions, (labelsOf function.body).Nodup) ∧
      ¬ List.Forall₂ Function.TidiedTo clearing.functions clearing.tidy.1.functions := by
  refine ⟨by decide, ?_⟩
  intro tidied
  have same := (List.forall₂_cons.mp tidied).1.body idleWorld onesState
  have before : EndsAt idleWorld [.mov .zr (.x 1), .mov (.x 1) .zr, .ret] onesState
      (.returned (onesState.set (.x 1) 0) []) := ⟨rfl, 3, rfl⟩
  have after : EndsAt idleWorld [.mov .zr (.x 1), .ret] onesState (.returned onesState []) :=
    ⟨rfl, 2, rfl⟩
  have equal := ((same.ends _).mp before).unique after
  have cleared : (onesState.set (.x 1) 0).get (.x 1) = onesState.get (.x 1) := by
    rw [(Config.returned.inj equal).1]
  exact absurd cleared (by decide)

end Program

end ArmBackend.Machine
