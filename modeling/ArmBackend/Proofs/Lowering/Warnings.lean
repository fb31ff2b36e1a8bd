import ArmBackend.Proofs.Lowering.WellFormed
import Mathlib.Data.List.Nodup

/-!
# Divisions by zero are told once

Folding warns of every division of literals by zero that it comes upon, in each sweep anew, and
the log takes a warning only if it has none about the instruction.  It knows an instruction by
its text, and in the text of a division the destination comes first.  No two instructions of a
lowered program write one temporary, and no pass changes a division by zero as soon as it has
literals.  So the log has one warning for each of the divisions.
-/

namespace ArmBackend.Ir

open List

/-- A division of literals by zero, in a function as it was before all passes. -/
structure ZeroDivision where
  function : Function
  instr : Instr

namespace ZeroDivision

def warning (division : ZeroDivision) : Warning :=
  .ofZeroDivision division.function.name division.instr

/-- The message to the user, with the line of the instruction. -/
def diagnostic (division : ZeroDivision) : Diagnostic :=
  .warning division.warning.message (.atLine division.instr.line)

end ZeroDivision

/-- The divisions by zero that folding comes upon, as the passes go over the function. -/
def Function.met : List Pass → Function → List Instr
  | [], _ => []
  | pass :: rest, function =>
    (if pass = .folding then zeroDivisions function.code else []) ++ (pass.run function).1.met rest

/-- Folding comes upon the division in some sweep of the optimizer. -/
def Program.Meets (program : Program) (division : ZeroDivision) : Prop :=
  division.function ∈ program.functions ∧ division.instr ∈
    division.function.met (replicate program.optimize.stats.sweeps Pass.standard).flatten

/-- The optimizer tells the user of the divisions that it meets, and once of each. -/
structure Program.TellsOnce (program : Program) (divisions : List ZeroDivision) : Prop where
  told : program.optimize.warnings.diagnostics = divisions.map ZeroDivision.diagnostic
  met : ∀ division, division ∈ divisions ↔ program.Meets division
  temps : ∀ division ∈ divisions, ∃ name, division.instr.defined = some (.temp name)
  /-- no two of them have one destination -/
  distinct : (divisions.map (·.instr.defined)).Nodup

/-! ## The log -/

variable {function : Function} {instr one two : Instr} {passes : List Pass} {name : String}

theorem Function.after_append (first second : List Pass) (function : Function) :
    function.after (first ++ second) = (function.after first).after second :=
  foldl_append

theorem Function.met_append (first second : List Pass) (function : Function) :
    function.met (first ++ second) = function.met first ++ (function.after first).met second := by
  induction first generalizing function with
  | nil => rfl
  | cons pass rest ih =>
    rw [cons_append, met, ih, met, append_assoc]
    rfl

/-- What is met is a division by zero behind some of the passes. -/
theorem Function.exists_of_mem_met (member : instr ∈ function.met passes) :
    ∃ before, before <+: passes ∧ instr ∈ zeroDivisions (function.after before).code := by
  induction passes generalizing function with
  | nil => cases member
  | cons pass rest ih =>
    rcases mem_append.mp member with here | later
    · split at here
      · exact ⟨[], nil_prefix, here⟩
      · cases here
    · obtain ⟨before, first, there⟩ := ih later
      exact ⟨pass :: before, cons_prefix_cons.mpr ⟨rfl, first⟩, there⟩

theorem WarningLog.addAll_append (log : WarningLog) (first second : List Warning) :
    log.addAll (first ++ second) = (log.addAll first).addAll second :=
  foldl_append

theorem warnings_sweepFunction (passes : List Pass) (log : WarningLog) (function : Function) :
    (sweepFunction passes log function).warnings =
      log.addAll ((function.met passes).map (.ofZeroDivision function.name)) := by
  induction passes generalizing log function with
  | nil => rfl
  | cons pass rest ih =>
    have here : pass.warnings function.name function.code =
        (if pass = .folding then zeroDivisions function.code else []).map
          (.ofZeroDivision function.name) := by cases pass <;> rfl
    rw [Function.met, map_append, WarningLog.addAll_append, ← here]
    exact ih _ _

/-- The divisions that are met in the functions, which are behind some passes already. -/
def divisionsMet (functions : List Function) (done passes : List Pass) : List ZeroDivision :=
  functions.flatMap fun function => ((function.after done).met passes).map (.mk function)

theorem warnings_sweepFunctions (done passes : List Pass) (log : WarningLog)
    (functions : List Function) :
    (sweepFunctions passes log (functions.map (Function.after done))).warnings =
      log.addAll ((divisionsMet functions done passes).map ZeroDivision.warning) := by
  induction functions generalizing log with
  | nil => rfl
  | cons function rest ih =>
    have first := warnings_sweepFunction passes log (function.after done)
    rw [function.name_after] at first
    rw [divisionsMet, flatMap_cons, map_append, map_map, WarningLog.addAll_append]
    exact (ih _).trans (congrArg (WarningLog.addAll · _) first)

/-- The log is what was met in so many sweeps. -/
theorem warnings_iterate (functions : List Function) (passes done : List Pass) (budget : Nat)
    (state : Optimized) (made : state.functions = functions.map (Function.after done)) :
    ∃ sweeps, ∃ all : List ZeroDivision,
      (state.iterate passes budget).sweeps = state.sweeps + sweeps ∧
      (state.iterate passes budget).warnings =
        state.warnings.addAll (all.map ZeroDivision.warning) ∧
      ∀ division, division ∈ all ↔
        division ∈ divisionsMet functions done (replicate sweeps passes).flatten := by
  induction budget generalizing state done with
  | zero => exact ⟨0, [], rfl, rfl, by simp [divisionsMet, Function.met]⟩
  | succ budget ih =>
    have logged := warnings_sweepFunctions done passes state.warnings functions
    rw [← made] at logged
    have swept : (state.sweep passes).functions =
        functions.map (Function.after (done ++ passes)) := by
      refine (sweepFunctions_result passes state.warnings state.functions).trans ?_
      rw [made, List.map_map]
      exact map_congr_left fun function _ => (function.after_append done passes).symm
    rw [Optimized.iterate]
    split
    · exact ⟨1, _, rfl, logged, by simp⟩
    · obtain ⟨sweeps, all, count, later, members⟩ := ih (done ++ passes) (state.sweep passes) swept
      refine ⟨sweeps + 1, divisionsMet functions done passes ++ all, ?_, ?_, fun division => ?_⟩
      · have once : (state.sweep passes).sweeps = state.sweeps + 1 := rfl
        omega
      · rw [later, map_append, WarningLog.addAll_append, ← logged]
        rfl
      · rw [mem_append, members, replicate_succ, flatten_cons]
        simp only [divisionsMet, mem_flatMap, Function.met_append, map_append, mem_append,
          Function.after_append, and_or_left, exists_or]

/-- Where no two entries are known by one text, each of them is logged once. -/
theorem WarningLog.addAll_map {known divisions : List ZeroDivision} (distinct : known.Nodup)
    (single : ∀ one ∈ known ++ divisions, ∀ two ∈ known ++ divisions,
      one.warning.sameInstr two.warning = true → one = two) :
    ∃ all : List ZeroDivision, WarningLog.addAll (known.map ZeroDivision.warning)
        (divisions.map ZeroDivision.warning) = all.map ZeroDivision.warning ∧ all.Nodup ∧
      ∀ division, division ∈ all ↔ division ∈ known ++ divisions := by
  induction divisions generalizing known with
  | nil => exact ⟨known, rfl, distinct, by simp⟩
  | cons first rest ih =>
    have logged : (known.map ZeroDivision.warning).any first.warning.sameInstr = true ↔
        first ∈ known := by
      rw [any_map, any_eq_true]
      constructor
      · rintro ⟨other, there, same⟩
        rwa [single first (by simp) other (mem_append_left _ there) same]
      · exact fun there => ⟨first, there, by simp [Warning.sameInstr]⟩
    have step : WarningLog.addAll (known.map ZeroDivision.warning)
        ((first :: rest).map ZeroDivision.warning) = WarningLog.addAll
          (WarningLog.add (known.map ZeroDivision.warning) first.warning)
          (rest.map ZeroDivision.warning) := rfl
    rw [step, add]
    split
    · next any =>
        have there := logged.mp any
        have members (division : ZeroDivision) :
            division ∈ known ++ first :: rest ↔ division ∈ known ++ rest := by
          simp only [mem_append, mem_cons]
          refine ⟨?_, fun member => member.imp id .inr⟩
          rintro (member | rfl | member)
          exacts [.inl member, .inl there, .inr member]
        simp only [members] at single ⊢
        exact ih distinct single
    · next new =>
        have more : (known ++ [first]).Nodup := distinct.append (nodup_singleton first)
          (disjoint_singleton.mpr fun there => new (logged.mpr there))
        rw [append_cons known first rest] at single ⊢
        have all := ih more single
        rwa [map_append] at all

/-! ## One instruction for each temporary -/

/-- The temporary that the instruction writes. -/
def Instr.temp? (instr : Instr) : Option String :=
  instr.written?.bind Operand.temp?

theorem tempsOf_eq_flatMap (code : List Instr) :
    tempsOf code = code.flatMap fun instr => instr.temp?.toList := by
  rw [tempsOf, filterMap_filterMap, filterMap_eq_flatMap_toList]
  rfl

theorem tempsOf_flatMap (functions : List Function) :
    tempsOf (functions.flatMap Function.code) =
      functions.flatMap fun function => tempsOf function.code := by
  simp only [tempsOf_eq_flatMap, flatMap_assoc]

theorem eq_of_mem_flatMap {α β : Type} {list : List α} {parts : α → List β} {first second : α}
    {part : β} (distinct : (list.flatMap parts).Nodup) (one : first ∈ list) (two : second ∈ list)
    (here : part ∈ parts first) (there : part ∈ parts second) : first = second := by
  have apart := (nodup_flatMap.mp distinct).2
  have : Std.Symm (Function.onFun List.Disjoint parts) := ⟨fun _ _ disjoint => disjoint.symm⟩
  by_contra differ
  exact apart.forall one two differ here there

namespace Function

theorem tempsOf_after (function : Function) (passes : List Pass) :
    (tempsOf (function.after passes).code).Sublist (tempsOf function.code) :=
  (Trims.written (function.keepsLanding_after passes)).filterMap _

theorem divides_of_mem_met (member : instr ∈ function.met passes) :
    instr.opcode.divides = true := by
  obtain ⟨_, _, there⟩ := exists_of_mem_met member
  exact Instr.divides_of_dividesByZero (mem_filter.mp there).2

/-- The destination is a temporary that the function has written from the start. -/
theorem dest_of_mem_met {strict : Prop} (sound : function.Sound strict)
    (member : instr ∈ function.met passes) :
    ∃ name type, instr.dest = some (.temp name type) ∧ instr.temp? = some name ∧
      name ∈ tempsOf function.code := by
  have computes : instr.opcode.computes = true := by
    have divides := divides_of_mem_met member
    revert divides
    cases instr.opcode <;> decide
  obtain ⟨before, _, there⟩ := exists_of_mem_met member
  obtain ⟨inside, _⟩ := mem_filter.mp there
  obtain ⟨_, formed, _⟩ := (sound.after before).regular.of_mem instr inside
  obtain ⟨dest, given, name, type, rfl, _⟩ := formed.of_computes computes
  have temp : instr.temp? = some name := by
    rw [Instr.temp?, Instr.written?_of_computes computes, given]
    rfl
  refine ⟨name, type, given, temp, (tempsOf_after function before).subset ?_⟩
  rw [tempsOf_eq_flatMap]
  exact mem_flatMap.mpr ⟨instr, inside, Option.mem_toList.mpr temp⟩

section

variable (distinct : (tempsOf function.code).Nodup) (here : one.temp? = some name)
  (there : two.temp? = some name)
include distinct here there

/-- Passes leave a division by zero as it is, or drop it. -/
theorem eq_of_mem_after (first : one ∈ zeroDivisions function.code)
    (second : two ∈ (function.after passes).code) : two = one := by
  obtain ⟨inside, zero⟩ := mem_filter.mp first
  obtain ⟨source, member, turns⟩ := Trims.origin (function.keepsLanding_after passes) two second
  have same : source.temp? = some name := by rwa [Instr.temp?, ← turns.written]
  rw [tempsOf_eq_flatMap] at distinct
  cases eq_of_mem_flatMap distinct inside member (Option.mem_toList.mpr here)
    (Option.mem_toList.mpr same)
  exact turns.fixed zero

theorem eq_of_mem_met (first : one ∈ function.met passes) (second : two ∈ function.met passes) :
    one = two := by
  obtain ⟨before, start, member⟩ := exists_of_mem_met first
  obtain ⟨before', start', member'⟩ := exists_of_mem_met second
  have fewer := distinct.sublist (tempsOf_after function before)
  have fewer' := distinct.sublist (tempsOf_after function before')
  rcases prefix_or_prefix_of_prefix start start' with ⟨more, rfl⟩ | ⟨more, rfl⟩
  · rw [after_append] at member'
    exact (eq_of_mem_after fewer here there member (mem_filter.mp member').1).symm
  · rw [after_append] at member
    exact eq_of_mem_after fewer' there here member' (mem_filter.mp member).1

end

end Function

/-! ## The key of the log -/

/-- A temporary in front of a blank can be read off. -/
theorem takeWhile_tempName (number : Nat) (rest : List Char) :
    ((tempName number).toList ++ ' ' :: rest).takeWhile (· != ' ') = (tempName number).toList := by
  have digits : (toString number).toList = Nat.toDigits 10 number := String.toList_ofList
  have filled : ∀ char ∈ (tempName number).toList, (char != ' ') = true := by
    rw [tempName, String.toList_append, digits]
    intro char member
    rcases mem_append.mp member with letter | digit
    · rw [show char = 't' by simpa using letter]
      rfl
    · refine bne_iff_ne.mpr fun blank => ?_
      have isDigit := Nat.isDigit_of_mem_toDigits (by decide) (by decide) digit
      rw [blank] at isDigit
      cases isDigit
  rw [takeWhile_append_of_pos filled]
  simp

namespace Instr

/-- The text of a division begins with its destination. -/
theorem text_of_divides (divides : instr.opcode.divides = true) {type : DataType}
    (given : instr.dest = some (.temp name type)) :
    ∃ rest, instr.text.toList = "    ".toList ++ (name.toList ++ ' ' :: rest) := by
  have kind : instr.opcode ≠ .label ∧ instr.opcode.writesDest = true := by
    revert divides
    cases instr.opcode <;> decide
  rw [text, bareText, if_neg kind.1, headText, given]
  simp only [kind.2, if_true, Operand.text, String.toList_append, append_assoc]
  exact ⟨_, rfl⟩

/-- Divisions with one text have one destination. -/
theorem eq_of_text {left right : Nat} {first second : DataType} (same : one.text = two.text)
    (divides : one.opcode.divides = true) (divides' : two.opcode.divides = true)
    (given : one.dest = some (.temp (tempName left) first))
    (given' : two.dest = some (.temp (tempName right) second)) : left = right := by
  obtain ⟨rest, shown⟩ := text_of_divides divides given
  obtain ⟨rest', shown'⟩ := text_of_divides divides' given'
  rw [same, shown', append_cancel_left_eq] at shown
  have names := congrArg (takeWhile (· != ' ')) shown
  rw [takeWhile_tempName, takeWhile_tempName, String.toList_inj] at names
  exact tempName_injective names.symm

end Instr

/-! ## Lowered programs -/

section

variable {scopes : ScopeTrace} {suppress : Bool} {tree : Tree} {program : Program}
  {context : Context} {first second : ZeroDivision}
  (lowered : Program.ofTree scopes suppress tree = .ok (program, context))
include lowered

theorem ofTree_issues :
    Issues .empty context ((Origin.all tree).flatMap Origin.literals)
      (program.functions.flatMap Function.code) :=
  (ofTree_chain lowered (False.elim : False → _)).1.issues

namespace Program.Meets

theorem dest (meets : program.Meets first) :
    ∃ number type, first.instr.dest = some (.temp (tempName number) type) ∧
      first.instr.temp? = some (tempName number) ∧
      tempName number ∈ tempsOf first.function.code := by
  have sound := ofTree_sound lowered (False.elim : False → _) first.function meets.1
  obtain ⟨name, type, given, temp, there⟩ := Function.dest_of_mem_met sound meets.2
  obtain ⟨_, _, names⟩ := (ofTree_issues lowered).temps
  have inside : name ∈ tempsOf (program.functions.flatMap Function.code) := by
    rw [tempsOf_flatMap]
    exact mem_flatMap.mpr ⟨first.function, meets.1, there⟩
  rw [names] at inside
  obtain ⟨number, _, rfl⟩ := mem_map.mp inside
  exact ⟨number, type, given, temp, there⟩

/-- No two divisions have one destination. -/
theorem eq_of_defined (one : program.Meets first) (two : program.Meets second)
    (same : first.instr.defined = second.instr.defined) : first = second := by
  obtain ⟨number, type, given, temp, there⟩ := one.dest lowered
  obtain ⟨number', type', given', temp', there'⟩ := two.dest lowered
  rw [Instr.defined, Instr.defined, given, given'] at same
  obtain rfl : number = number' := tempName_injective (Location.temp.inj (Option.some.inj same))
  have distinct := (ofTree_issues lowered).nodup
  rw [tempsOf_flatMap] at distinct
  obtain ⟨function, instr⟩ := first
  obtain ⟨other, instr'⟩ := second
  obtain rfl : function = other := eq_of_mem_flatMap distinct one.1 two.1 there there'
  have own := (nodup_flatMap.mp distinct).1 function one.1
  exact congrArg (ZeroDivision.mk function) (Function.eq_of_mem_met own temp temp' one.2 two.2)

/-- Two divisions never share what the log knows an instruction by. -/
theorem eq_of_sameInstr (one : program.Meets first) (two : program.Meets second)
    (same : first.warning.sameInstr second.warning = true) : first = second := by
  obtain ⟨number, type, given, _⟩ := one.dest lowered
  obtain ⟨number', type', given', _⟩ := two.dest lowered
  simp only [Warning.sameInstr, Bool.and_eq_true, beq_iff_eq] at same
  cases Instr.eq_of_text same.1.2 (Function.divides_of_mem_met one.2)
    (Function.divides_of_mem_met two.2) given given'
  refine one.eq_of_defined lowered two ?_
  rw [Instr.defined, Instr.defined, given, given']
  rfl

end Program.Meets

end

/--
After the optimizer the warnings are one for each division of literals by zero that folding came
upon in some sweep, each with the line of its instruction.  No two of them have one destination.
-/
theorem optimize_tells_once {scopes : ScopeTrace} {suppress : Bool} {tree : Tree}
    {program : Program} {context : Context}
    (lowered : Program.ofTree scopes suppress tree = .ok (program, context)) :
    ∃ divisions, program.TellsOnce divisions := by
  obtain ⟨sweeps, all, count, logged, members⟩ := warnings_iterate program.functions Pass.standard
    [] maxSweeps { functions := program.functions, changes := Pass.standard.map fun _ => 0 }
    (List.map_id _).symm
  have ran : program.optimize.stats.sweeps = sweeps := count.trans (Nat.zero_add sweeps)
  have met (division : ZeroDivision) : division ∈ all ↔ program.Meets division := by
    rw [members, Program.Meets, ran, divisionsMet, mem_flatMap]
    constructor
    · rintro ⟨function, member, there⟩
      obtain ⟨instr, inside, rfl⟩ := mem_map.mp there
      exact ⟨member, inside⟩
    · exact fun ⟨member, inside⟩ => ⟨_, member, mem_map_of_mem inside⟩
  obtain ⟨divisions, same, distinct, inside⟩ := WarningLog.addAll_map nodup_nil
    fun first there second there' => ((met first).mp there).eq_of_sameInstr lowered
      ((met second).mp there')
  replace met (division : ZeroDivision) : division ∈ divisions ↔ program.Meets division :=
    (inside division).trans (met division)
  refine ⟨divisions, ?_, met, fun division there => ?_, ?_⟩
  · have warnings : program.optimize.warnings = divisions.map ZeroDivision.warning :=
      logged.trans same
    rw [WarningLog.diagnostics, warnings, map_map]
    rfl
  · obtain ⟨number, type, given, _⟩ := ((met division).mp there).dest lowered
    exact ⟨tempName number, by rw [Instr.defined, given]; rfl⟩
  · refine distinct.map_on fun first there second there' => ?_
    exact ((met first).mp there).eq_of_defined lowered ((met second).mp there')

/-- Two functions of one name that divide by zero, and two such divisions on one line. -/
def zeroing : Tree where
  statements :=
    [.functionDecl ⟨1, 1⟩ "half" [] .int
        [.ret ⟨1, 20⟩ (some (.binary ⟨1, 27⟩ .div (.int ⟨1, 27⟩ 1) (.int ⟨1, 31⟩ 0)))],
      .functionDecl ⟨1, 40⟩ "half" [] .int
        [.ret ⟨1, 60⟩ (some (.binary ⟨1, 67⟩ .div (.int ⟨1, 67⟩ 1) (.int ⟨1, 71⟩ 0)))],
      .varDecl ⟨2, 1⟩ "none" .int (some (.int ⟨2, 12⟩ 0)),
      .println ⟨3, 1⟩ (.binary ⟨3, 9⟩ .div (.int ⟨3, 9⟩ 1) (.name ⟨3, 13⟩ "none")),
      .println ⟨3, 20⟩ (.binary ⟨3, 28⟩ .div (.int ⟨3, 28⟩ 1) (.name ⟨3, 32⟩ "none"))]

theorem zeroing_tells_once :
    ∃ program context divisions, Program.ofTree .empty false zeroing = .ok (program, context) ∧
      program.TellsOnce divisions ∧
      (divisions.map ZeroDivision.diagnostic).map (·.position.line) = [3, 3, 1, 1] := by
  have lines : ((Program.ofTree .empty false zeroing).map fun entry =>
      entry.1.optimize.warnings.diagnostics.map (·.position.line)).toOption =
        some [3, 3, 1, 1] := by
    decide +kernel
  cases lowered : Program.ofTree .empty false zeroing with
  | error error =>
    rw [lowered] at lines
    cases lines
  | ok result =>
    rw [lowered] at lines
    obtain ⟨divisions, tells⟩ := optimize_tells_once lowered
    exact ⟨result.1, result.2, divisions, rfl, tells, tells.told ▸ Option.some.inj lines⟩

end ArmBackend.Ir
