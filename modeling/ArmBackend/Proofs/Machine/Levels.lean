import ArmBackend.Proofs.Machine.Emission
import ArmBackend.Proofs.Machine.Placement

/-!
# Code that leaves the pointers alone

Between the ends of a function only calls move the stack pointer, and nothing moves the
frame pointer.  All other code is level: no instruction of it writes one of the two.
-/

namespace ArmBackend.Machine

open ArmBackend.Frame

variable {instr : Instr} {code : List Instr} {reg : Reg}

theorem Instr.get_exec (spared : reg ∉ instr.written) (platform : Platform) (state : State) :
    (instr.exec platform state).get reg = state.get reg := by
  cases instr with
  | ldpPost first second base offset =>
    simp only [written, List.mem_cons, List.not_mem_nil, or_false, not_or] at spared
    rw [exec, State.get_set_ne _ _ spared.2.2, State.get_set_ne _ _ spared.2.1,
      State.get_set_ne _ _ spared.1]
  | stpPre first second base offset =>
    rw [exec, State.get_set_ne _ _ (by simpa [written] using spared), State.get_store,
      State.get_store]
  | fmovTo | float | fneg | frintz | fmsub | scvtf => exact State.get_setFloat ..
  | fcmp | cmp | cmpImm => exact State.get_setFlags ..
  | stur | str | strAt => exact State.get_store ..
  | b | cbz | cbnz | bl | ret | label | directive | comment | placeholder => rfl
  | _ => exact State.get_set_ne _ _ (by simpa [written] using spared)

/-- The register is neither of the pointers. -/
def Reg.IsPlain (reg : Reg) : Prop :=
  reg ≠ .fp ∧ reg ≠ .sp

instance (reg : Reg) : Decidable reg.IsPlain :=
  inferInstanceAs (Decidable (_ ∧ _))

/-- No instruction of the code writes one of the pointers. -/
def Level (code : List Instr) : Prop :=
  ∀ instr ∈ code, ∀ reg ∈ instr.written, reg.IsPlain

@[simp]
theorem level_nil : Level [] :=
  nofun

@[simp]
theorem level_cons {rest : List Instr} :
    Level (instr :: rest) ↔ (∀ reg ∈ instr.written, reg.IsPlain) ∧ Level rest :=
  List.forall_mem_cons

@[simp]
theorem level_append {first second : List Instr} :
    Level (first ++ second) ↔ Level first ∧ Level second :=
  List.forall_mem_append

/-- Level code keeps both pointers. -/
theorem Level.get_eq (level : Level code) (pointer : ¬ reg.IsPlain) (platform : Platform)
    (state : State) : (execAll platform code state).get reg = state.get reg := by
  induction code generalizing state with
  | nil => rfl
  | cons instr rest ih =>
    obtain ⟨here, there⟩ := level_cons.mp level
    rw [execAll_cons, ih there]
    exact Instr.get_exec (fun member => pointer (here reg member)) platform state

namespace Placement

variable (placed : Placement)

theorem isPlain_of_home {place : Ir.Location} {register : Reg}
    (found : placed.layout.homes.get? place = some (.reg register)) : register.IsPlain := by
  obtain ⟨_, fp, sp, _⟩ := not_temporary_of_home found
  exact ⟨fp, sp⟩

theorem moves_plain : placed.site.Moves Reg.IsPlain fun instr =>
    ∀ reg ∈ instr.written, reg.IsPlain where
  spare := by decide
  home := placed.isPlain_of_home
  bare _ writes := writes
  const plain sets := by cases sets <;> simpa [Instr.written] using plain
  ldur plain _ := by simpa [Instr.written] using plain
  stur _ := nofun
  ldr plain _ := by simpa [Instr.written] using plain
  str _ := nofun
  array _ plain _ := by split <;> simpa [Instr.written] using plain

theorem computes_plain (source : Ir.Instr) : placed.site.Computes source Reg.IsPlain fun instr =>
    ∀ reg ∈ instr.written, reg.IsPlain where
  toMoves := placed.moves_plain
  literal _ _ _ writes := writes
  truth _ := nofun

theorem level_select {pending : Pending} {instr : Ir.Instr}
    (kind : instr.opcode ∉ [.call, .ret, .exit])
    (selected : (placed.site.select pending instr).run = .ok code) : Level code := by
  have bound (instr : Instr) (ends : instr.isBoundary = true) :
      ∀ reg ∈ instr.written, reg.IsPlain := by
    have none : instr.written = [] := by cases instr <;> first | rfl | cases ends
    rw [none]
    exact nofun
  exact ((placed.computes_plain instr).emits_selectStraight bound pending kind).of_run
    placed.moves_plain.scratch selected

end Placement

end ArmBackend.Machine
