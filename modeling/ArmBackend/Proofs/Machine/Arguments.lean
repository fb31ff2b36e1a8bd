import ArmBackend.Proofs.Machine.Selection

/-!
# Arguments of a call

The arguments that wait for a call are brought to the stack and into registers one after
the other.  None of them is overwritten before the call, and what the caller holds stays
as it is.
-/

namespace ArmBackend.Frame.Convention

open List Option

open Machine

variable {position : Nat} {register : Reg}

/-- The registers of two positions differ. -/
theorem register?_injective {one two : Nat} (first : register? one = some register)
    (second : register? two = some register) : one = two := by
  have distinct : Reg.arguments.Nodup := by decide
  exact (getElem?_inj (List.getElem?_eq_some_iff.mp first).1 distinct).mp
    (first.trans second.symm)

theorem mem_arguments_of_register? (found : register? position = some register) :
    register ∈ Reg.arguments :=
  mem_of_getElem? found

theorem outgoing?_eq_some {offset : Nat} (found : outgoing? position = some offset)
    (near : position < reach) :
    registerCount ≤ position ∧ offset = 8 * (position - registerCount) := by
  unfold outgoing? narrowed at found
  unfold reach at near
  split at found
  · cases found
  · cases found
    omega

theorem outgoing?_within {offset count : Nat} (found : outgoing? position = some offset)
    (few : position < count) (near : count ≤ reach) : offset + 8 ≤ outgoingArea count := by
  obtain ⟨late, rfl⟩ := outgoing?_eq_some found (Nat.lt_of_lt_of_le few near)
  have eight : registerCount = 8 := rfl
  unfold reach at near
  unfold outgoingArea narrowed
  omega

theorem outgoingArea_aligned (count : Nat) : 16 ∣ outgoingArea count :=
  Nat.dvd_mul_left 16 _

theorem outgoingArea_lt (count : Nat) : outgoingArea count < 2 ^ 32 := by
  unfold outgoingArea narrowed
  omega

end ArmBackend.Frame.Convention

namespace ArmBackend.Machine

open List Option

open ArmBackend.Frame

/-- The registers that a callee gives back as it found them. -/
def Reg.kept : List Reg :=
  pool ++ [fp, sp]

/-! ## Positions in order -/

variable {operand dest : Ir.Operand} {registers free : List Reg} {count position : Nat}
  {pending ordered arguments : Pending} {register : Reg} {span stack : Span} {fp : Word}

namespace Site

theorem inOrder_perm (pending : Pending) : (inOrder pending).Perm pending :=
  mergeSort_perm pending _

theorem sorted_inOrder (pending : Pending) :
    (inOrder pending).Pairwise fun left right => left.1 ≤ right.1 := by
  have sorted : (inOrder pending).Pairwise fun left right => decide (left.1 ≤ right.1) = true := by
    refine pairwise_mergeSort (fun one two three below above => ?_) (fun one two => ?_) pending
    · rw [decide_eq_true_eq] at below above ⊢
      exact Nat.le_trans below above
    · rw [Bool.or_eq_true, decide_eq_true_eq, decide_eq_true_eq]
      exact Nat.le_total _ _
  exact sorted.imp fun below => of_decide_eq_true below

theorem positions_inOrder (positions : (pending.map Prod.fst).Perm (List.range count)) :
    (inOrder pending).map Prod.fst = List.range count :=
  List.Perm.eq_of_pairwise (fun _ _ _ _ => Nat.le_antisymm)
    (pairwise_map.mpr (sorted_inOrder pending)) pairwise_le_range
    (((inOrder_perm pending).map Prod.fst).trans positions)

/-- No argument comes behind the last one. -/
theorem lt_argumentCount (sorted : ordered.Pairwise fun left right => left.1 ≤ right.1)
    {entry : Nat × Ir.Operand} (member : entry ∈ ordered) : entry.1 < argumentCount ordered := by
  obtain ⟨init, last, rfl⟩ : ∃ init last, ordered = init ++ [last] :=
    ⟨_, _, (dropLast_append_getLast (ne_nil_of_mem member)).symm⟩
  have most : entry.1 ≤ last.1 := by
    rcases mem_append.mp member with early | late
    · exact (pairwise_append.mp sorted).2.2 entry early last (mem_singleton_self _)
    · rw [mem_singleton.mp late]
  unfold argumentCount
  rw [getLast?_concat]
  exact Nat.lt_succ_of_le most

theorem argumentCount_le {most : Nat} (below : ∀ entry ∈ ordered, entry.1 < most) :
    argumentCount ordered ≤ most := by
  unfold argumentCount
  split
  · next position value last => exact below _ (mem_of_getLast? last)
  · exact Nat.zero_le _

theorem argumentCount_eq (positions : ordered.map Prod.fst = List.range count) :
    argumentCount ordered = count := by
  have last : ordered.getLast?.map Prod.fst = (List.range count).getLast? := by
    rw [← positions, getLast?_map]
  rw [getLast?_range] at last
  unfold argumentCount
  split at last
  · next none =>
      rw [map_eq_none_iff.mp last, none]
  · next some =>
      obtain ⟨entry, found, same⟩ := map_eq_some_iff.mp last
      rw [found]
      dsimp only
      omega

end Site

/-- The words that arguments take on the stack. -/
def argumentWords (sp : Word) (arguments : Pending) : List Span :=
  arguments.filterMap fun entry =>
    (Convention.outgoing? entry.1).map fun offset => .word (sp + BitVec.ofNat 64 offset)

/-- The registers that arguments take. -/
def argumentRegisters (arguments : Pending) : List Reg :=
  arguments.filterMap fun entry => Convention.register? entry.1

theorem mem_argumentWords {sp : Word} :
    span ∈ argumentWords sp arguments ↔ ∃ entry ∈ arguments, ∃ offset,
      Convention.outgoing? entry.1 = some offset ∧ .word (sp + BitVec.ofNat 64 offset) = span := by
  simp only [argumentWords, mem_filterMap, map_eq_some_iff]

theorem argumentRegisters_subset (arguments : Pending) :
    argumentRegisters arguments ⊆ Reg.arguments := by
  intro register member
  obtain ⟨entry, _, found⟩ := mem_filterMap.mp member
  exact Convention.mem_arguments_of_register? found

theorem words_apart (sp : Word) {one two offset offset' : Nat} (differ : one ≠ two)
    (first : Convention.outgoing? one = some offset)
    (second : Convention.outgoing? two = some offset') (near : one < Convention.reach)
    (near' : two < Convention.reach) :
    (Span.word (sp + BitVec.ofNat 64 offset)).Apart (Span.word (sp + BitVec.ofNat 64 offset')) := by
  obtain ⟨late, rfl⟩ := Convention.outgoing?_eq_some first near
  obtain ⟨late', rfl⟩ := Convention.outgoing?_eq_some second near'
  unfold Convention.reach at near near'
  rw [← BitVec.ofInt_natCast, ← BitVec.ofInt_natCast]
  exact Span.apart_of_distance (by omega) (by omega) (by omega)

namespace Placement

variable (placed : Placement)

/-- The span touches neither the frame nor a global. -/
structure Clear (fp : Word) (span : Span) : Prop where
  frame : span.Apart (placed.frame fp)
  globals : ∀ name, placed.InPlay (.global name) → span.Apart (placed.region name)

variable {placed} {machine after : State} {state : Ir.State}

theorem Clear.inside {part : Span} (clear : placed.Clear fp span) (inside : part.Inside span) :
    placed.Clear fp part :=
  ⟨clear.frame.inside inside (inside_refl _),
    fun name play => (clear.globals name play).inside inside (inside_refl _)⟩

theorem Holds.outside (holds : placed.Holds machine state)
    (off : placed.OffStack (machine.get .fp) stack) {spans : List Span}
    (spares : placed.Spares registers) (clear : ∀ span ∈ spans, placed.Clear (machine.get .fp) span)
    (confined : Confined registers spans machine after) : placed.Holds after state := by
  intro place
  refine (holds place).carry (confined.get_eq _ spares.fp) ⟨rfl, fun _ _ => rfl, fun _ _ => rfl⟩
    (fun found => confined.get_eq _ (spares.homes found)) fun has => ?_
  obtain ⟨stored, play, found, inside⟩ := has.inside off.small
  refine confined.load_eq fun span member address within touched => ?_
  cases own : place.isGlobal with
  | true =>
    cases place with
    | global name =>
      cases found
      exact (clear span member).globals name play address touched (inside address within)
    | _ => cases own
  | false =>
    obtain ⟨home, listed, rfl⟩ := home_of_storage own found
    exact (clear span member).frame address touched
      (span_inside_frame listed off.frame_small address (inside address within))

theorem leads_stackArgument (holds : placed.Holds machine state)
    (reads : placed.Reads (machine.get .fp) state operand) :
    (placed.site.stackArgument position operand).Leads placed.platform free machine
      fun _ _ after =>
        Confined Reg.temporaries (argumentWords (machine.get .sp) [(position, operand)]) machine
          after ∧
        ∀ offset, Convention.outgoing? position = some offset →
          after.memory.load (machine.get .sp + BitVec.ofNat 64 offset) =
            placed.value state operand := by
  have scratch := suffix_refl Reg.scratch
  unfold Site.stackArgument
  split
  · next none => exact .done ⟨.refl .., fun offset found => absurd (none.symm.trans found) nofun⟩
  · next offset found =>
      refine .bind (.refill (.bind ((leads_load scratch holds reads).mono
        fun register free' middle post => .code ?_)))
      obtain ⟨_, confined, same, _⟩ := post
      have sp : middle.get .sp = machine.get .sp := confined.get_eq _ (by decide)
      have puts := puts_store (machine.get .sp + BitVec.ofNat 64 offset) (middle.get register) middle
        []
      rw [execAll_cons, execAll_nil, Instr.exec, sp]
      refine ⟨?_, ?_⟩
      · have words : argumentWords (machine.get .sp) [(position, operand)] =
            [.word (machine.get .sp + BitVec.ofNat 64 offset)] := by
          simp [argumentWords, found]
        rw [words]
        exact (confined.mono (working_subset_temporaries scratch) (nil_subset _)).trans
          (puts.confined.widen (nil_subset _))
      · intro other found'
        rw [found] at found'
        cases found'
        rw [puts.load_eq, same]

theorem leads_stackArguments (off : placed.OffStack (machine.get .fp) stack)
    (holds : placed.Holds machine state)
    (near : ∀ entry ∈ arguments, entry.1 < Convention.reach)
    (clear : ∀ span ∈ argumentWords (machine.get .sp) arguments,
      placed.Clear (machine.get .fp) span)
    (reads : ∀ entry ∈ arguments, placed.Reads (machine.get .fp) state entry.2) :
    (placed.site.stackArguments arguments).Leads placed.platform free machine fun _ _ after =>
      Confined Reg.temporaries (argumentWords (machine.get .sp) arguments) machine after ∧
      ((arguments.map Prod.fst).Nodup → ∀ entry ∈ arguments, ∀ offset,
        Convention.outgoing? entry.1 = some offset → after.memory.load
          (machine.get .sp + BitVec.ofNat 64 offset) = placed.value state entry.2) := by
  induction arguments generalizing machine free with
  | nil => exact .done ⟨.refl .., nofun⟩
  | cons entry rest ih =>
    obtain ⟨position, operand⟩ := entry
    have words : argumentWords (machine.get .sp) ((position, operand) :: rest) =
        argumentWords (machine.get .sp) [(position, operand)] ++
          argumentWords (machine.get .sp) rest :=
      filterMap_append (l := [(position, operand)])
    rw [words] at clear ⊢
    refine .bind ((leads_stackArgument holds (reads _ (mem_cons_self ..))).mono
      fun _ free' middle post => ?_)
    obtain ⟨confined, stored⟩ := post
    have spares := placed.spares_temporaries
    have fp : middle.get .fp = machine.get .fp := confined.get_eq _ spares.fp
    have sp : middle.get .sp = machine.get .sp := confined.get_eq _ (by decide)
    have holds' := holds.outside off spares
      (fun span member => clear span (mem_append_left _ member)) confined
    refine (ih (fp.symm ▸ off) holds'
      (fun entry member => near entry (mem_cons_of_mem _ member)) ?_ ?_).mono
        fun _ _ after post => ?_
    · rw [sp, fp]
      exact fun span member => clear span (mem_append_right _ member)
    · rw [fp]
      exact fun entry member => reads entry (mem_cons_of_mem _ member)
    rw [sp] at post
    obtain ⟨confined', stored'⟩ := post
    refine ⟨(confined.mono (List.Subset.refl _) (subset_append_left _ _)).trans
      (confined'.mono (List.Subset.refl _) (subset_append_right _ _)), ?_⟩
    intro distinct entry member offset found
    rcases mem_cons.mp member with rfl | later
    · -- The words of later arguments lie apart from this one.
      rw [← stored offset found]
      refine confined'.load_eq fun span listed => ?_
      obtain ⟨other, member', offset', found', rfl⟩ := mem_argumentWords.mp listed
      have differ : position ≠ other.1 := by
        rintro rfl
        exact (nodup_cons.mp distinct).1 (mem_map.mpr ⟨other, member', rfl⟩)
      exact words_apart _ differ found found' (near _ (mem_cons_self ..))
        (near other (mem_cons_of_mem _ member'))
    · exact stored' (nodup_cons.mp distinct).2 entry later offset found

theorem leads_registerArgument (holds : placed.Holds machine state)
    (reads : placed.Reads (machine.get .fp) state operand) :
    (placed.site.registerArgument position operand).Leads placed.platform free machine
      fun _ _ after =>
        Confined (argumentRegisters [(position, operand)] ++ Reg.temporaries) [] machine after ∧
        ∀ register, Convention.register? position = some register →
          after.get register = placed.value state operand := by
  have scratch := suffix_refl Reg.scratch
  unfold Site.registerArgument
  split
  · next none => exact .done ⟨.refl .., fun offset found => absurd (none.symm.trans found) nofun⟩
  · next register found =>
      have listed := Convention.mem_arguments_of_register? found
      have named : register ≠ .zr := by
        rintro rfl
        revert listed
        decide
      refine .bind (.refill ((leads_loadInto scratch holds named reads).mono
        fun _ _ after post => ?_))
      obtain ⟨_, brings⟩ := post
      have registers : argumentRegisters [(position, operand)] = [register] := by
        simp [argumentRegisters, found]
      refine ⟨?_, ?_⟩
      · rw [registers]
        exact brings.confined.widen
          (cons_subset_cons _ (working_subset_temporaries scratch))
      · intro other found'
        rw [found] at found'
        cases found'
        exact brings.get_eq

theorem spares_arguments (calls : placed.function.isLeaf = false)
    (few : registers ⊆ Reg.arguments) : placed.Spares (registers ++ Reg.temporaries) := by
  have apart : ∀ register ∈ Reg.pool, register ∉ Reg.arguments := by decide
  refine ⟨fun found inside => ?_, fun inside => ?_⟩
  · rcases mem_append.mp inside with argument | temporary
    · exact apart _ (Layout.mem_pool_of_not_leaf placed.laid calls found) (few argument)
    · exact placed.spares_temporaries.homes found temporary
  · rcases mem_append.mp inside with argument | temporary
    · exact absurd (few argument) (by decide)
    · exact placed.spares_temporaries.fp temporary

theorem leads_registerArguments (calls : placed.function.isLeaf = false)
    (holds : placed.Holds machine state)
    (reads : ∀ entry ∈ arguments, placed.Reads (machine.get .fp) state entry.2) :
    (placed.site.registerArguments arguments).Leads placed.platform free machine fun _ _ after =>
      Confined (argumentRegisters arguments ++ Reg.temporaries) [] machine after ∧
      ((arguments.map Prod.fst).Nodup → ∀ entry ∈ arguments, ∀ register,
        Convention.register? entry.1 = some register →
          after.get register = placed.value state entry.2) := by
  induction arguments generalizing machine free with
  | nil => exact .done ⟨.refl .., nofun⟩
  | cons entry rest ih =>
    obtain ⟨position, operand⟩ := entry
    have registers : argumentRegisters ((position, operand) :: rest) =
        argumentRegisters [(position, operand)] ++ argumentRegisters rest :=
      filterMap_append (l := [(position, operand)])
    rw [registers]
    refine .bind ((leads_registerArgument holds (reads _ (mem_cons_self ..))).mono
      fun _ free' middle post => ?_)
    obtain ⟨confined, loaded⟩ := post
    have spares := spares_arguments calls (argumentRegisters_subset [(position, operand)])
    have fp : middle.get .fp = machine.get .fp := confined.get_eq _ spares.fp
    refine (ih (holds.keep spares confined) ?_).mono fun _ _ after post => ?_
    · rw [fp]
      exact fun entry member => reads entry (mem_cons_of_mem _ member)
    obtain ⟨confined', loaded'⟩ := post
    refine ⟨(confined.widen ?_).trans
      (confined'.widen ?_), ?_⟩
    · rw [append_assoc]
      exact append_subset.mpr ⟨subset_append_left _ _,
        List.Subset.trans (subset_append_right _ _) (subset_append_right _ _)⟩
    · rw [append_assoc]
      exact subset_append_right _ _
    intro distinct entry member register found
    rcases mem_cons.mp member with rfl | later
    · -- Later arguments have other registers.
      rw [← loaded register found]
      refine confined'.get_eq register fun inside => ?_
      rcases mem_append.mp inside with argument | temporary
      · obtain ⟨other, member', found'⟩ := mem_filterMap.mp argument
        have same := Convention.register?_injective found found'
        exact (nodup_cons.mp distinct).1 (mem_map.mpr ⟨other, member', same.symm⟩)
      · have apart : ∀ register ∈ Reg.arguments, register ∉ Reg.temporaries := by decide
        exact apart register (Convention.mem_arguments_of_register? found) temporary
    · exact loaded' (nodup_cons.mp distinct).2 entry later register found

/-- The result of a call goes to its destination. -/
theorem leads_takeResult (state : Ir.State) :
    (placed.site.takeResult (some dest)).Leads placed.platform free machine fun _ _ after =>
      placed.Delivers state dest (machine.get .result) machine after := by
  have scratch := suffix_refl Reg.scratch
  refine .bind (.refill (.bind ((leads_target scratch).mono fun register free' middle post => ?_)))
  obtain ⟨rfl, isTarget⟩ := post
  obtain ⟨named, _, _⟩ := isTarget.spared scratch
  refine .bind (.code ?_)
  split
  · next same =>
      have stays : Confined (register :: Reg.temporaries) [] middle middle := .refl ..
      rw [← same]
      exact leads_deliver state scratch isTarget stays
  · have brings := brings_set named (middle.get .result) middle []
    have confined : Confined (register :: Reg.temporaries) [] middle _ :=
      brings.confined.widen (by simp)
    refine (leads_deliver state scratch isTarget confined).mono fun _ _ after delivers => ?_
    rwa [brings.get_eq] at delivers

end Placement

/-- The parts of the code of a call. -/
theorem call_ok {site : Site} {instr : Ir.Instr} {code : List Instr}
    (done : (site.call pending instr).run = .ok code) :
    ∃ callee stacked registered taken, instr.label = some callee ∧
      site.stackArguments (Site.inOrder pending) Reg.scratch = .ok stacked ∧
      site.registerArguments (Site.inOrder pending) stacked.free = .ok registered ∧
      site.takeResult instr.dest registered.free = .ok taken ∧
      code = (reserve (Convention.outgoingArea (Site.argumentCount (Site.inOrder pending))) ++
        stacked.code ++ registered.code) ++ .bl callee ::
          (release (Convention.outgoingArea (Site.argumentCount (Site.inOrder pending))) ++
            taken.code) := by
  obtain ⟨callee, named, done⟩ := Emit.run_required_ok done
  obtain ⟨emitted, whole, rfl⟩ := Emit.run_ok done
  obtain ⟨reserved, fromStack, ⟨⟩, stackOn, rfl⟩ := Emit.bind_ok whole
  obtain ⟨stacked, fromRegisters, storing, registersOn, rfl⟩ := Emit.bind_ok stackOn
  obtain ⟨registered, fromBranch, loading, branchOn, rfl⟩ := Emit.bind_ok registersOn
  obtain ⟨branch, fromRelease, ⟨⟩, releaseOn, rfl⟩ := Emit.bind_ok branchOn
  obtain ⟨released, taken, ⟨⟩, takes, rfl⟩ := Emit.bind_ok releaseOn
  refine ⟨callee, stacked, registered, taken, named, storing, loading, takes, ?_⟩
  simp

namespace Placement

/-- The bytes below the stack pointer that a call takes for its arguments. -/
def outgoing (sp : Word) (count : Nat) : Span :=
  ⟨sp - BitVec.ofNat 64 (Convention.outgoingArea count), Convention.outgoingArea count⟩

variable (placed : Placement)

/-- What the caller holds is as before when it comes to the call. -/
structure Gathers (state : Ir.State) (count : Nat) (machine atCall : State) : Prop where
  sp : atCall.get .sp = machine.get .sp - BitVec.ofNat 64 (Convention.outgoingArea count)
  confined : Confined (.sp :: Reg.arguments ++ Reg.temporaries)
    [outgoing (machine.get .sp) count] machine atCall
  holds : placed.Holds atCall state

/-- At a call every argument is where it belongs. -/
structure Passes (state : Ir.State) (arguments : Pending) (atCall : State) : Prop where
  registers : ∀ entry ∈ arguments, ∀ register, Convention.register? entry.1 = some register →
    atCall.get register = placed.value state entry.2
  words : ∀ entry ∈ arguments, ∀ offset, Convention.outgoing? entry.1 = some offset →
    atCall.memory.load (atCall.get .sp + BitVec.ofNat 64 offset) = placed.value state entry.2

variable {placed} {machine : State} {state : Ir.State}

theorem argumentWords_inside (sp : Word) (below : ∀ entry ∈ arguments, entry.1 < count)
    (near : count ≤ Convention.reach)
    (member : span ∈ argumentWords (sp - BitVec.ofNat 64 (Convention.outgoingArea count)) arguments) :
    span.Inside (outgoing sp count) := by
  obtain ⟨entry, listed, offset, found, rfl⟩ := mem_argumentWords.mp member
  have within := Convention.outgoing?_within found (below entry listed) near
  have small := Convention.outgoingArea_lt count
  exact @Span.inside_of_offset (outgoing sp count) offset 8 within (by unfold outgoing; dsimp only; omega)

theorem spares_sp (placed : Placement) : placed.Spares [.sp, .address] := by
  refine ⟨fun found inside => ?_, by decide⟩
  have spared := not_temporary_of_home found
  rcases mem_cons.mp inside with rfl | inside
  · exact spared.2.2.1 rfl
  · rw [mem_singleton.mp inside] at spared
    exact spared.1 (by decide)

theorem gathers_and_passes (calls : placed.function.isLeaf = false)
    (off : placed.OffStack (machine.get .fp) stack)
    (clear : placed.Clear (machine.get .fp) (outgoing (machine.get .sp) count))
    (holds : placed.Holds machine state) (below : ∀ entry ∈ arguments, entry.1 < count)
    (near : count ≤ Convention.reach)
    (reads : ∀ entry ∈ arguments, placed.Reads (machine.get .fp) state entry.2)
    {stacked registered : Emitted Unit}
    (storing : placed.site.stackArguments arguments free = .ok stacked)
    (loading : placed.site.registerArguments arguments stacked.free = .ok registered) :
    placed.Gathers state count machine (execAll placed.platform
      (reserve (Convention.outgoingArea count) ++ stacked.code ++ registered.code) machine) ∧
    ((arguments.map Prod.fst).Nodup → placed.Passes state arguments (execAll placed.platform
      (reserve (Convention.outgoingArea count) ++ stacked.code ++ registered.code) machine)) := by
  have reserved := (shift_brings placed.platform machine (Convention.outgoingArea count)).1
  rw [execAll_append, execAll_append]
  generalize execAll placed.platform (reserve (Convention.outgoingArea count)) machine = lowered
    at reserved ⊢
  have fp : lowered.get .fp = machine.get .fp := reserved.confined.get_eq _ placed.spares_sp.fp
  have sp : lowered.get .sp =
      machine.get .sp - BitVec.ofNat 64 (Convention.outgoingArea count) := reserved.get_eq
  have holds_lowered := holds.keep placed.spares_sp reserved.confined
  have off_lowered : placed.OffStack (lowered.get .fp) stack := fp.symm ▸ off
  have reads_lowered : ∀ entry ∈ arguments, placed.Reads (lowered.get .fp) state entry.2 :=
    fp.symm ▸ reads
  -- Words for arguments are written below the frame.
  have inside : ∀ span ∈ argumentWords (lowered.get .sp) arguments,
      span.Inside (outgoing (machine.get .sp) count) :=
    fun span member => argumentWords_inside _ below near (sp ▸ member)
  have clear_words : ∀ span ∈ argumentWords (lowered.get .sp) arguments,
      placed.Clear (lowered.get .fp) span :=
    fun span member => fp.symm ▸ clear.inside (inside span member)
  obtain ⟨confined, stored⟩ := leads_stackArguments off_lowered holds_lowered
    (fun entry member => Nat.lt_of_lt_of_le (below entry member) near)
    clear_words reads_lowered stacked storing
  generalize execAll placed.platform stacked.code lowered = pushed at confined stored ⊢
  have fp' : pushed.get .fp = lowered.get .fp := confined.get_eq _ placed.spares_temporaries.fp
  have sp' : pushed.get .sp = lowered.get .sp := confined.get_eq _ (by decide)
  have holds_pushed :=
    holds_lowered.outside off_lowered placed.spares_temporaries clear_words confined
  -- Registers of arguments are no homes, so no later argument is lost.
  obtain ⟨confined', loaded⟩ :=
    leads_registerArguments calls holds_pushed (fp'.symm ▸ reads_lowered) registered loading
  have few : argumentRegisters arguments ++ Reg.temporaries ⊆ Reg.arguments ++ Reg.temporaries :=
    append_subset.mpr ⟨List.Subset.trans (argumentRegisters_subset _)
      (subset_append_left _ _), subset_append_right _ _⟩
  have sp'' : (execAll placed.platform registered.code pushed).get .sp = pushed.get .sp :=
    confined'.get_eq _ fun member => absurd (few member) (by decide)
  constructor
  · refine ⟨by rw [sp'', sp', sp], ?_, holds_pushed.keep
      (spares_arguments calls (argumentRegisters_subset arguments)) confined'⟩
    have all : Reg.arguments ++ Reg.temporaries ⊆ .sp :: Reg.arguments ++ Reg.temporaries :=
      subset_cons_self ..
    have temporaries : Reg.temporaries ⊆ .sp :: Reg.arguments ++ Reg.temporaries :=
      subset_append_right _ _
    exact ((reserved.confined.mono (by decide) (nil_subset _)).trans
      ((confined.within inside).widen temporaries)).trans
        (confined'.mono (List.Subset.trans few all) (nil_subset _))
  · refine fun distinct => ⟨loaded distinct, fun entry member offset found => ?_⟩
    rw [confined'.memory_eq_of_nil, sp'', sp']
    exact stored distinct entry member offset found

/-! ## Calls -/

variable (placed) in
/-- Control comes back from a call: the stack pointer returns to where it was, and the result goes
to its destination. -/
structure Resumes (state : Ir.State) (instr : Ir.Instr) (machine back final : State) : Prop where
  sp : final.get .sp = machine.get .sp
  result : ∀ dest, instr.dest = some dest → ∃ spot,
    placed.spot? (machine.get .fp) state dest = some spot ∧ spot.read final = back.get .result
  confined : Confined
    (.sp :: (instr.dest.bind (placed.spot? (machine.get .fp) state)).toList.flatMap Spot.registers ++
      Reg.temporaries)
    ((instr.dest.bind (placed.spot? (machine.get .fp) state)).toList.flatMap Spot.spans) back final

variable {world : World} {instr : Ir.Instr} {before after : List Ir.Instr} {ahead : List Instr}

theorem home_of_spot {spot : Spot} (there : placed.spot? fp state dest = some spot)
    (member : register ∈ spot.registers) :
    ∃ place, placed.layout.homes.get? place = some (.reg register) := by
  have simple (place : Ir.Location) (there : placed.placeSpot? fp place = some spot) :
      ∃ place, placed.layout.homes.get? place = some (.reg register) := by
    unfold placeSpot? at there
    split at there
    · next other found =>
        cases there
        rw [mem_singleton.mp member]
        exact ⟨place, found⟩
    · cases there
      cases member
    · cases there
  cases dest with
  | temp name type | var name type | param name type => exact simple _ there
  | global name type | element array index type =>
    cases there
    cases member
  | label name type | immediate value type => cases there

theorem resumes_of_taken {back atCall : State} (gathers : placed.Gathers state count machine atCall)
    (kept : ∀ register ∈ Reg.kept, back.get register = atCall.get register) {taken : Emitted Unit}
    (takes : placed.site.takeResult instr.dest free = .ok taken) :
    placed.Resumes state instr machine back
      (execAll placed.platform (release (Convention.outgoingArea count) ++ taken.code) back) := by
  have released := (shift_brings placed.platform back (Convention.outgoingArea count)).2
  rw [execAll_append]
  generalize execAll placed.platform (release (Convention.outgoingArea count)) back = raised
    at released ⊢
  have sp : raised.get .sp = machine.get .sp := by
    rw [released.get_eq, kept .sp (by decide), gathers.sp, BitVec.sub_add_cancel]
  have fp : raised.get .fp = machine.get .fp := by
    rw [released.confined.get_eq _ (by decide), kept .fp (by decide),
      gathers.confined.get_eq _ (by decide)]
  have result : raised.get .result = back.get .result :=
    released.confined.get_eq _ (by decide)
  cases dest : instr.dest with
  | none =>
    rw [dest] at takes
    cases takes
    exact ⟨sp, by simp [dest], released.confined.mono (by simp [dest]; decide) (nil_subset _)⟩
  | some operand =>
    rw [dest] at takes
    obtain ⟨spot, there, read, confined⟩ := leads_takeResult state taken takes
    rw [fp] at there
    rw [result] at read
    have outside : Reg.sp ∉ spot.registers ++ Reg.temporaries := by
      rw [mem_append]
      rintro (member | member)
      · obtain ⟨place, found⟩ := home_of_spot there member
        exact (not_temporary_of_home found).2.2.1 rfl
      · exact absurd member (by decide)
    have spots : (instr.dest.bind (placed.spot? (machine.get .fp) state)).toList = [spot] := by
      simp [dest, there]
    refine ⟨(confined.get_eq _ outside).trans sp, ?_, ?_⟩
    · intro other same
      rw [dest] at same
      cases same
      exact ⟨spot, there, read⟩
    · rw [spots, flatMap_singleton, flatMap_singleton]
      refine (released.confined.mono ?_ (nil_subset _)).trans
        (confined.widen (subset_cons_self ..))
      exact cons_subset.mpr ⟨mem_cons_self .., cons_subset.mpr
        ⟨mem_append_right _ (by decide), nil_subset _⟩⟩

section

variable (opcode : instr.opcode = .call) (here : placed.At before (instr :: after) ahead)
  (off : placed.OffStack (machine.get .fp) stack)
  (counted : Site.argumentCount (Site.inOrder (pendingOf before)) = count)
  (near : count ≤ Convention.reach)
  (clear : placed.Clear (machine.get .fp) (outgoing (machine.get .sp) count))
  (holds : placed.Holds machine state)
  (reads : ∀ entry ∈ pendingOf before, placed.Reads (machine.get .fp) state entry.2)
include opcode here off counted near clear holds reads

theorem call_parts :
    ∃ callee front behind ahead', instr.label = some callee ∧
      ahead = front ++ .bl callee :: (behind ++ ahead') ∧ Inner front ∧ Inner behind ∧
      placed.At (before ++ [instr]) after ahead' ∧
      placed.Gathers state count machine (execAll placed.platform front machine) ∧
      (((pendingOf before).map Prod.fst).Nodup →
        placed.Passes state (pendingOf before) (execAll placed.platform front machine)) ∧
      ∀ back, (∀ register ∈ Reg.kept, back.get register =
          (execAll placed.platform front machine).get register) →
        placed.Resumes state instr machine back (execAll placed.platform behind back) := by
  obtain ⟨code, ahead', selected, rfl, there⟩ := here.next
  simp only [Site.select, opcode] at selected
  obtain ⟨callee, stacked, registered, taken, named, storing, loading, takes, rfl⟩ :=
    call_ok selected
  rw [counted]
  have perm := Site.inOrder_perm (pendingOf before)
  have below : ∀ entry ∈ Site.inOrder (pendingOf before), entry.1 < count :=
    fun entry member => counted ▸ Site.lt_argumentCount (Site.sorted_inOrder _) member
  have inner : placed.function.isLeaf = false := by
    simp only [Ir.Function.isLeaf, Bool.not_eq_false', List.any_eq_true]
    exact ⟨instr, here.mem, by simp [opcode]⟩
  obtain ⟨gathers, passes⟩ := gathers_and_passes inner off clear holds
    below near (fun entry member => reads entry (perm.mem_iff.mp member)) storing loading
  have front : Inner (reserve (Convention.outgoingArea count) ++ stacked.code ++ registered.code) := by
    rw [inner_append, inner_append]
    exact ⟨⟨inner_reserve _, placed.site.isInner_stackArguments _ _ _ storing⟩,
      placed.site.isInner_registerArguments _ _ _ loading⟩
  have behind : Inner (release (Convention.outgoingArea count) ++ taken.code) := by
    rw [inner_append]
    exact ⟨inner_release _, placed.site.isInner_takeResult _ _ _ takes⟩
  refine ⟨callee, _, _, ahead', named, append_assoc .., front, behind, there, gathers,
    fun distinct => ?_, fun back kept => resumes_of_taken gathers kept takes⟩
  have passed := passes ((perm.map Prod.fst).nodup_iff.mpr distinct)
  exact ⟨fun entry member => passed.registers entry (perm.mem_iff.mpr member),
    fun entry member => passed.words entry (perm.mem_iff.mpr member)⟩

end

end Placement

end ArmBackend.Machine
