import ArmBackend.Proofs.Machine.Execution
import ArmBackend.Proofs.Machine.Placement
import ArmBackend.Proofs.Machine.Emission

/-!
# Where control stands

Control of the machine stands where the code of an instruction begins, or where that of
the function ends.  A branch goes to the code behind the first label with the spelling of
its target.
-/

namespace ArmBackend.Ir

open List Option

/-- The code behind the first label that the assembly spells like this. -/
def afterSpelling (target : String) : List Instr → Option (List Instr)
  | [] => none
  | instr :: rest =>
    if instr.mark?.map Machine.Symbol.ofLabel = some target then some rest
    else afterSpelling target rest

/-- Labels that the assembly spells alike are the same. -/
def SpelledApart (code : List Instr) : Prop :=
  ∀ one ∈ marksOf code, ∀ two ∈ marksOf code,
    Machine.Symbol.ofLabel one = Machine.Symbol.ofLabel two → one = two

theorem mem_marksOf_of_afterLabel {name : String} {code rest : List Instr}
    (found : afterLabel name code = some rest) : name ∈ marksOf code := by
  induction code with
  | nil => cases found
  | cons instr code ih =>
    rw [afterLabel] at found
    rw [marksOf_cons]
    split at found
    · next marks => simp [(instr.marks_iff name).mp marks]
    · exact mem_append_right _ (ih found)

theorem afterSpelling_eq {name : String} {code rest : List Instr}
    (apart : ∀ other ∈ marksOf code,
      Machine.Symbol.ofLabel other = Machine.Symbol.ofLabel name → other = name)
    (found : afterLabel name code = some rest) :
    afterSpelling (Machine.Symbol.ofLabel name) code = some rest := by
  induction code with
  | nil => cases found
  | cons instr code ih =>
    rw [marksOf_cons] at apart
    rw [afterLabel] at found
    rw [afterSpelling]
    split at found
    · next marks =>
        rw [if_pos (by rw [(instr.marks_iff name).mp marks]; rfl)]
        exact found
    · next other =>
        rw [if_neg, ih (fun label member => apart label (mem_append_right _ member)) found]
        intro spelled
        obtain ⟨label, mark, same⟩ := map_eq_some_iff.mp spelled
        refine other ((instr.marks_iff name).mpr (mark.trans ?_))
        rw [apart label (by simp [mark]) same]

end ArmBackend.Ir

namespace ArmBackend.Machine

open List Option

open ArmBackend.Frame

variable {assembled : Function} {instr : Ir.Instr} {first code : List Instr} {pending : Pending}
  {site : Site} {name : String}

theorem Inner.straight (inner : Inner code) : ∀ instr ∈ code, instr.isStraight = true :=
  fun instr member => Instr.isStraight_of_not_isBoundary (inner instr member)

namespace Config

variable {world : World} {body : List Instr}

/-- The run comes by this configuration. -/
def Reaches (world : World) (body : List Instr) (config later : Config) : Prop :=
  ∃ count, run world body count config = later

theorem Reaches.refl (config : Config) : Reaches world body config config :=
  ⟨0, rfl⟩

theorem Reaches.trans {first second third : Config} (one : Reaches world body first second)
    (two : Reaches world body second third) : Reaches world body first third := by
  obtain ⟨count, rfl⟩ := one
  obtain ⟨more, rfl⟩ := two
  exact ⟨count + more, run_add world body count more first⟩

theorem reaches_step (config : Config) : Reaches world body config (step world body config) :=
  ⟨1, rfl⟩

/-- Control comes to the end of inner code. -/
theorem reaches_inner (inner : Inner code) (rest : List Instr) (state : State) (calls : List Call) :
    Reaches world body (running (code ++ rest) state calls)
      (running rest (execAll world.toPlatform code state) calls) :=
  ⟨code.length, run_straight world body inner.straight rest state calls⟩

end Config

theorem afterLabel_append (outside : name ∉ labelsOf first) (rest : List Instr) :
    afterLabel name (first ++ rest) = afterLabel name rest := by
  induction first with
  | nil => rfl
  | cons instr first ih =>
    rw [labelsOf_cons, mem_append, not_or] at outside
    rw [cons_append, afterLabel, if_neg, ih outside.2]
    rintro rfl
    exact outside.1 (mem_singleton_self name)

theorem Inner.afterLabel_append (inner : Inner first) (name : String) (rest : List Instr) :
    afterLabel name (first ++ rest) = afterLabel name rest :=
  Machine.afterLabel_append (by rw [inner.labelsOf_eq]; exact not_mem_nil) rest

/-- The arguments that wait behind the code. -/
def pendingOf (code : List Ir.Instr) : Pending :=
  code.foldl pendingAfter []

theorem pendingOf_append (code : List Ir.Instr) (instr : Ir.Instr) :
    pendingOf (code ++ [instr]) = pendingAfter (pendingOf code) instr := by
  rw [pendingOf, pendingOf, foldl_append]
  rfl

theorem arg_of_mem_pendingOf {code : List Ir.Instr} {entry : Nat × Ir.Operand}
    (member : entry ∈ pendingOf code) :
    ∃ instr ∈ code, instr.opcode = .arg ∧ argument? instr = some entry := by
  induction code using List.reverseRecOn with
  | nil => cases member
  | append_singleton code instr ih =>
    have earlier (member : entry ∈ pendingOf code) :
        ∃ instr' ∈ code ++ [instr], instr'.opcode = .arg ∧ argument? instr' = some entry := by
      obtain ⟨other, listed, given⟩ := ih member
      exact ⟨other, mem_append_left _ listed, given⟩
    rw [pendingOf_append] at member
    unfold pendingAfter at member
    split at member
    · next passes =>
        rcases mem_append.mp member with before | new
        · exact earlier before
        · exact ⟨instr, mem_append_right _ (mem_singleton_self _), passes,
            mem_toList.mp new⟩
    · cases member
    · exact earlier member

theorem select_label (mark : instr.mark? = some name)
    (selected : (site.select pending instr).run = .ok code) :
    code = [.label (Symbol.ofLabel name)] := by
  unfold Ir.Instr.mark? at mark
  split at mark
  · next opcode =>
      have yields : (site.select pending instr).Yields (· = [.label (Symbol.ofLabel name)]) := by
        simp only [Site.select, opcode]
        refine .part fun other named => .code ?_
        rw [named] at mark
        cases mark
        rfl
      exact yields.of_run selected
  · cases mark

theorem afterLabel_selectCode {function target : String} {code : List Ir.Instr}
    {selected tail : List Instr}
    (done : (selectCode site function pending code).result = .ok selected)
    (unlabelled : target ∉ labelsOf tail) :
    match Ir.afterSpelling target code with
    | some rest => ∃ before others, code = before ++ rest ∧
        (selectCode site function (before.foldl pendingAfter pending) rest).result = .ok others ∧
        afterLabel target (selected ++ tail) = some (others ++ tail)
    | none => afterLabel target (selected ++ tail) = none := by
  induction code generalizing pending selected with
  | nil =>
    cases done
    have empty := afterLabel_append unlabelled []
    rw [append_nil] at empty
    exact empty
  | cons instr code ih =>
    obtain ⟨first, others, head, next, rfl⟩ := selectCode_cons done
    rw [Ir.afterSpelling, append_assoc]
    by_cases spelled : instr.mark?.map Symbol.ofLabel = some target
    · rw [if_pos spelled]
      obtain ⟨name, mark, rfl⟩ := map_eq_some_iff.mp spelled
      rw [select_label mark head]
      exact ⟨[instr], others, rfl, next, by simp [afterLabel]⟩
    · rw [if_neg spelled]
      have edges := (site.yields_select pending instr).of_run head
      have outside : target ∉ labelsOf first := by
        rw [edges.labels]
        intro inside
        refine spelled ?_
        cases mark : instr.mark? with
        | none => simp [mark] at inside
        | some name =>
          rw [mark] at inside
          rw [mem_singleton.mp inside]
          rfl
      rw [afterLabel_append outside]
      have later := ih next
      cases found : Ir.afterSpelling target code with
      | none => simpa only [found] using later
      | some rest =>
        rw [found] at later
        obtain ⟨before, others', same, chosen, behind⟩ := later
        exact ⟨instr :: before, others', by rw [same]; rfl, chosen, behind⟩

namespace Placement

variable (placed : Placement)

/-- What follows the code of the last instruction. -/
def ending : List Instr :=
  if leavesAtEnd placed.function then [] else placed.layout.epilogue

/-- The code ahead of the machine is that of the instructions behind these ones. -/
def At (before rest : List Ir.Instr) (ahead : List Instr) : Prop :=
  placed.function.code = before ++ rest ∧
    ∃ code, (selectCode placed.site placed.function.name (pendingOf before) rest).result = .ok code ∧
      ahead = code ++ placed.ending

variable {placed} {before rest : List Ir.Instr} {ahead : List Instr}

theorem ending_unlabelled (placed : Placement) (name : String) :
    name ∉ labelsOf placed.ending := by
  unfold ending
  split
  · exact not_mem_nil
  · rw [(hasEdges_epilogue placed.layout).labels]
    exact not_mem_nil

theorem body_of_ofIr
    (done : (Function.ofIr placed.globals placed.function).result = .ok assembled) :
    ∃ ahead, assembled.body = placed.layout.prologue ++ ahead ∧
      placed.At [] placed.function.code ahead := by
  obtain ⟨layout, laid, done⟩ := ofIr_ok done
  have same : layout = placed.layout := Except.ok.inj (laid.symm.trans placed.laid)
  subst same
  obtain ⟨code, selected, rfl⟩ := withLayout_ok done
  exact ⟨code ++ placed.ending, by simp [ending], rfl, code, selected, rfl⟩

theorem At.next (here : placed.At before (instr :: rest) ahead) :
    ∃ code ahead', (placed.site.select (pendingOf before) instr).run = .ok code ∧
      ahead = code ++ ahead' ∧ placed.At (before ++ [instr]) rest ahead' := by
  obtain ⟨whole, code, selected, rfl⟩ := here
  obtain ⟨first, others, head, tail, rfl⟩ := selectCode_cons selected
  refine ⟨first, others ++ placed.ending, head, append_assoc .., ?_, others, ?_, rfl⟩
  · rw [whole, append_assoc]
    rfl
  · rw [pendingOf_append]
    exact tail

theorem At.branch (done : (Function.ofIr placed.globals placed.function).result = .ok assembled)
    (target : String) :
    match Ir.afterSpelling target placed.function.code with
    | some rest => ∃ before ahead, placed.At before rest ahead ∧
        afterLabel target assembled.body = some ahead
    | none => afterLabel target assembled.body = none := by
  obtain ⟨_, body, _, code, selected, rfl⟩ := body_of_ofIr done
  have there := afterLabel_selectCode selected (placed.ending_unlabelled target)
  rw [body, (inner_prologue placed.layout).afterLabel_append]
  cases found : Ir.afterSpelling target placed.function.code with
  | none =>
    rw [found] at there
    exact there
  | some rest =>
    rw [found] at there
    obtain ⟨before, others, whole, chosen, behind⟩ := there
    exact ⟨before, others ++ placed.ending, ⟨whole, others, chosen, rfl⟩, behind⟩

end Placement

end ArmBackend.Machine
