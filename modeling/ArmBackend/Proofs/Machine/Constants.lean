import ArmBackend.Machine.Constant
import ArmBackend.Proofs.Machine.State

/-!
# Constants in registers

The code of a constant puts a word together from its chunks, upon zeros or ones that are
right in all other bits.  It leaves the word in its register and takes as many instructions
as there are chunks to set.
-/

namespace ArmBackend.Machine

open List

variable {chunk : Chunk} {plain : Chunk → Bool} {chunks : List Chunk} {bit : Nat} {word : Word}

namespace Chunk

/-- Replace the bits of a word at the place of the chunk. -/
def put (word : Word) (chunk : Chunk) : Word :=
  word &&& ~~~((BitVec.allOnes 16).setWidth 64 <<< chunk.shift) |||
    chunk.bits.setWidth 64 <<< chunk.shift

/-- The bit of a word is at the place of the chunk. -/
def Covers (chunk : Chunk) (bit : Nat) : Prop :=
  chunk.shift ≤ bit ∧ bit < chunk.shift + 16

instance (chunk : Chunk) (bit : Nat) : Decidable (chunk.Covers bit) :=
  inferInstanceAs (Decidable (_ ∧ _))

theorem getLsbD_put (word : Word) (chunk : Chunk) (small : bit < 64) :
    (put word chunk).getLsbD bit =
      if chunk.Covers bit then chunk.bits.getLsbD (bit - chunk.shift) else word.getLsbD bit := by
  unfold put Covers
  simp only [BitVec.getLsbD_or, BitVec.getLsbD_and, BitVec.getLsbD_not, BitVec.getLsbD_shiftLeft,
    BitVec.getLsbD_setWidth, BitVec.getLsbD_allOnes, small, decide_true, Bool.true_and]
  by_cases above : chunk.shift ≤ bit
  · by_cases below : bit < chunk.shift + 16
    · have near : bit - chunk.shift < 16 := by omega
      have near' : bit - chunk.shift < 64 := by omega
      simp [above, below, near, near', Nat.not_lt.mpr above]
    · have far : chunk.bits.getLsbD (bit - chunk.shift) = false :=
        BitVec.getLsbD_of_ge _ _ (by omega)
      have far' : ¬ bit - chunk.shift < 16 := by omega
      simp [above, below, far, far', Nat.not_lt.mpr above]
  · simp [above, Nat.lt_of_not_le above]

theorem put_zero (chunk : Chunk) : put 0#64 chunk = chunk.bits.setWidth 64 <<< chunk.shift := by
  simp [put]

theorem put_allOnes (chunk : Chunk) :
    put (BitVec.allOnes 64) chunk = ~~~((~~~chunk.bits).setWidth 64 <<< chunk.shift) := by
  refine BitVec.eq_of_getLsbD_eq fun bit small => ?_
  simp only [put, BitVec.getLsbD_or, BitVec.getLsbD_and, BitVec.getLsbD_not,
    BitVec.getLsbD_shiftLeft, BitVec.getLsbD_setWidth, BitVec.getLsbD_allOnes, small, decide_true,
    Bool.true_and]
  cases decide (bit < chunk.shift) <;> cases decide (bit - chunk.shift < 64) <;>
    cases decide (bit - chunk.shift < 16) <;> simp

/-- The distances that a chunk can be shifted by. -/
def shifts : List Nat :=
  [0, 16, 32, 48]

theorem mem_ofWord (listed : chunk ∈ ofWord word) :
    chunk.shift ∈ shifts ∧ chunk.bits = word.extractLsb' chunk.shift 16 := by
  obtain ⟨shift, member, rfl⟩ := mem_map.mp listed
  exact ⟨member, rfl⟩

theorem exists_covers (word : Word) (small : bit < 64) :
    ∃ chunk ∈ ofWord word, chunk.Covers bit := by
  refine ⟨⟨word.extractLsb' (bit / 16 * 16) 16, bit / 16 * 16⟩, ?_, ?_⟩
  · have cases : bit / 16 = 0 ∨ bit / 16 = 1 ∨ bit / 16 = 2 ∨ bit / 16 = 3 := by omega
    rcases cases with at0 | at1 | at2 | at3
    · simp [ofWord, at0]
    · simp [ofWord, at1]
    · simp [ofWord, at2]
    · simp [ofWord, at3]
  · unfold Covers
    dsimp only
    omega

theorem getLsbD_of_covers (listed : chunk ∈ ofWord word) (covers : chunk.Covers bit) :
    word.getLsbD bit = chunk.bits.getLsbD (bit - chunk.shift) := by
  rw [(mem_ofWord listed).2, BitVec.getLsbD_extractLsb',
    decide_eq_true (by unfold Covers at covers; omega), Bool.true_and,
    Nat.add_sub_cancel' covers.1]

theorem foldl_put_eq (chunks : List Chunk) (start : Word)
    (listed : ∀ chunk ∈ chunks, chunk ∈ ofWord word)
    (right : ∀ bit < 64, (∃ chunk ∈ chunks, chunk.Covers bit) ∨
      start.getLsbD bit = word.getLsbD bit) : chunks.foldl put start = word := by
  induction chunks generalizing start with
  | nil =>
    refine BitVec.eq_of_getLsbD_eq fun bit small => ?_
    rcases right bit small with ⟨chunk, impossible, _⟩ | same
    · cases impossible
    · exact same
  | cons chunk rest ih =>
    refine ih (put start chunk) (fun other member => listed other (.tail _ member)) ?_
    intro bit small
    rw [getLsbD_put start chunk small]
    by_cases covers : chunk.Covers bit
    · exact .inr (by rw [if_pos covers, getLsbD_of_covers (listed chunk (.head _)) covers])
    · rw [if_neg covers]
      refine (right bit small).imp_left ?_
      rintro ⟨other, member, covers'⟩
      cases member with
      | head => exact absurd covers' covers
      | tail _ later => exact ⟨other, later, covers'⟩

theorem foldl_put_filter {start : Word}
    (same : ∀ chunk, plain chunk = true → ∀ bit < 64, chunk.Covers bit →
      start.getLsbD bit = chunk.bits.getLsbD (bit - chunk.shift)) :
    ((ofWord word).filter (!plain ·)).foldl put start = word := by
  refine foldl_put_eq _ start (fun chunk member => (mem_filter.mp member).1) ?_
  intro bit small
  obtain ⟨chunk, listed, covers⟩ := exists_covers word small
  cases kind : plain chunk with
  | true => exact .inr (by rw [same chunk kind bit small covers, getLsbD_of_covers listed covers])
  | false => exact .inl ⟨chunk, mem_filter.mpr ⟨listed, by rw [kind]; rfl⟩, covers⟩

theorem foldl_put_zero (word : Word) :
    ((ofWord word).filter (!·.isZero)).foldl put 0#64 = word := by
  refine foldl_put_filter fun chunk zero bit _ _ => ?_
  have empty : chunk.bits = 0#16 := by simpa [isZero] using zero
  simp [empty]

theorem foldl_put_allOnes (word : Word) :
    ((ofWord word).filter (!·.isOnes)).foldl put (BitVec.allOnes 64) = word := by
  refine foldl_put_filter fun chunk ones bit small covers => ?_
  have full : chunk.bits = BitVec.allOnes 16 := by simpa [isOnes] using ones
  rw [full, BitVec.getLsbD_allOnes, BitVec.getLsbD_allOnes, decide_eq_true small,
    decide_eq_true (by unfold Covers at covers; omega)]

end Chunk

/-! ## What the code does -/

section

variable (platform : Platform) (state : State) {dest : Reg}

theorem State.set_set (one two : Word) : (state.set dest one).set dest two = state.set dest two := by
  cases dest with
  | x number =>
    simp only [State.set, State.mk.injEq, and_true]
    funext other
    split <;> rfl
  | sp => rfl
  | zr => rfl

theorem exec_movk (word : Word) (chunk : Chunk) :
    (Instr.movk dest chunk.bits chunk.shift).exec platform (state.set dest word) =
      state.set dest (chunk.put word) := by
  by_cases named : dest = .zr
  · subst named
    rfl
  · simp only [Instr.exec, State.get_set_self _ _ _ named, State.set_set, Chunk.put]

theorem execAll_setChunks {start : Chunk → Instr} {base : Word}
    (starts : ∀ chunk, (start chunk).exec platform state = state.set dest (chunk.put base))
    (some : chunks ≠ []) :
    execAll platform (setChunks dest start chunks) state =
      state.set dest (chunks.foldl Chunk.put base) := by
  have later (rest : List Chunk) (word : Word) :
      execAll platform (rest.map fun chunk => .movk dest chunk.bits chunk.shift)
        (state.set dest word) = state.set dest (rest.foldl Chunk.put word) := by
    induction rest generalizing word with
    | nil => rfl
    | cons chunk rest ih => rw [map_cons, execAll_cons, exec_movk, ih, foldl_cons]
  cases chunks with
  | nil => exact absurd rfl some
  | cons first rest => rw [setChunks, execAll_cons, starts, later, foldl_cons]

theorem filter_ne_nil (many : ¬ chunks.countP (!plain ·) ≤ 1) : chunks.filter (!plain ·) ≠ [] := by
  intro empty
  rw [countP_eq_length_filter, empty] at many
  exact many (Nat.zero_le 1)

theorem fitsMove_iff (word : Word) :
    fitsMove word = true ↔ (Chunk.ofWord word).countP (!·.isZero) ≤ 1 ∨
      (Chunk.ofWord word).countP (!·.isOnes) ≤ 1 := by
  simp [fitsMove]

theorem execAll_loadConst (word : Word) :
    execAll platform (loadConst dest word) state = state.set dest word := by
  unfold loadConst
  dsimp only
  split
  · rfl
  next many =>
    rw [fitsMove_iff, not_or] at many
    split
    · rw [execAll_setChunks platform state (fun chunk => by rw [Instr.exec, Chunk.put_allOnes])
        (filter_ne_nil many.2), Chunk.foldl_put_allOnes]
    · rw [execAll_setChunks platform state (fun chunk => by rw [Instr.exec, Chunk.put_zero])
        (filter_ne_nil many.1), Chunk.foldl_put_zero]

end

/-! ## Which code it is -/

/-- One chunk tells the word from zeros or from ones, so that one `movz` or `movn` sets it. -/
def HasOneChunk (word : Word) : Prop :=
  ∃ bits : BitVec 16, ∃ shift ∈ Chunk.shifts,
    word = bits.setWidth 64 <<< shift ∨ word = ~~~(bits.setWidth 64 <<< shift)

theorem Chunk.eq_or_eq_put {start : Word} (few : (ofWord word).countP (!plain ·) ≤ 1)
    (made : ((ofWord word).filter (!plain ·)).foldl put start = word) :
    word = start ∨ ∃ chunk ∈ ofWord word, word = put start chunk := by
  have listed : ∀ chunk ∈ (ofWord word).filter (!plain ·), chunk ∈ ofWord word :=
    fun _ member => (mem_filter.mp member).1
  rw [countP_eq_length_filter] at few
  generalize (ofWord word).filter (!plain ·) = chunks at few made listed
  match chunks, few with
  | [], _ => exact .inl made.symm
  | [chunk], _ => exact .inr ⟨chunk, listed chunk (.head _), made.symm⟩

theorem hasOneChunk_of_fitsMove (fits : fitsMove word = true) : HasOneChunk word := by
  rcases (fitsMove_iff word).mp fits with few | few
  · rcases Chunk.eq_or_eq_put few (Chunk.foldl_put_zero word) with start | ⟨chunk, listed, made⟩
    · exact ⟨0, 0, by decide, .inl (by rw [start]; rfl)⟩
    · exact ⟨chunk.bits, chunk.shift, (Chunk.mem_ofWord listed).1,
        .inl (made.trans chunk.put_zero)⟩
  · rcases Chunk.eq_or_eq_put few (Chunk.foldl_put_allOnes word) with start | ⟨chunk, listed, made⟩
    · exact ⟨0, 0, by decide, .inr (by rw [start]; rfl)⟩
    · exact ⟨~~~chunk.bits, chunk.shift, (Chunk.mem_ofWord listed).1,
        .inr (made.trans chunk.put_allOnes)⟩

/-- The instructions that set a register to a constant or a chunk of one. -/
inductive SetsConst (dest : Reg) : Instr → Prop
  | whole {word : Word} (single : HasOneChunk word) : SetsConst dest (.movConst dest word)
  | zeros (bits : BitVec 16) {shift : Nat} (listed : shift ∈ Chunk.shifts) :
      SetsConst dest (.movz dest bits shift)
  | ones (bits : BitVec 16) {shift : Nat} (listed : shift ∈ Chunk.shifts) :
      SetsConst dest (.movn dest bits shift)
  | keep (bits : BitVec 16) {shift : Nat} (listed : shift ∈ Chunk.shifts) :
      SetsConst dest (.movk dest bits shift)

theorem setsConst_setChunks {dest : Reg} {start : Chunk → Instr}
    (starts : ∀ chunk ∈ Chunk.ofWord word, SetsConst dest (start chunk))
    (listed : ∀ chunk ∈ chunks, chunk ∈ Chunk.ofWord word) :
    ∀ instr ∈ setChunks dest start chunks, SetsConst dest instr := by
  cases chunks with
  | nil => exact nofun
  | cons first rest =>
    refine forall_mem_cons.mpr ⟨starts first (listed first (.head _)), fun instr member => ?_⟩
    obtain ⟨chunk, inside, rfl⟩ := mem_map.mp member
    exact .keep _ (Chunk.mem_ofWord (listed chunk (.tail _ inside))).1

theorem setsConst_loadConst (dest : Reg) (word : Word) :
    ∀ instr ∈ loadConst dest word, SetsConst dest instr := by
  unfold loadConst
  dsimp only
  split
  · next fits => exact forall_mem_singleton.mpr (.whole (hasOneChunk_of_fitsMove fits))
  split
  · exact setsConst_setChunks (fun chunk listed => .ones _ (Chunk.mem_ofWord listed).1)
      fun _ member => (mem_filter.mp member).1
  · exact setsConst_setChunks (fun chunk listed => .zeros _ (Chunk.mem_ofWord listed).1)
      fun _ member => (mem_filter.mp member).1

theorem length_setChunks (dest : Reg) (start : Chunk → Instr) (chunks : List Chunk) :
    (setChunks dest start chunks).length = chunks.length := by
  cases chunks <;> simp [setChunks]

/-- The count of chunks of a word that are not the given one. -/
def chunksBesides (usual : BitVec 16) (word : Word) : Nat :=
  Chunk.shifts.countP fun shift => word.extractLsb' shift 16 != usual

theorem length_loadConst (dest : Reg) (word : Word) :
    (loadConst dest word).length =
      max 1 (min (chunksBesides 0 word) (chunksBesides (BitVec.allOnes 16) word)) := by
  have zeros : chunksBesides 0 word = (Chunk.ofWord word).countP (!·.isZero) :=
    (countP_map ..).symm
  have ones : chunksBesides (BitVec.allOnes 16) word = (Chunk.ofWord word).countP (!·.isOnes) :=
    (countP_map ..).symm
  have total (plain : Chunk → Bool) : (Chunk.ofWord word).length =
      (Chunk.ofWord word).countP plain + (Chunk.ofWord word).countP (!plain ·) := by
    have sum := length_eq_countP_add_countP plain (l := Chunk.ofWord word)
    simpa only [Bool.not_eq_true, Bool.decide_eq_false] using sum
  have totalZeros := total Chunk.isZero
  have totalOnes := total Chunk.isOnes
  rw [zeros, ones]
  unfold loadConst
  dsimp only
  split
  · next fits =>
      rw [fitsMove_iff] at fits
      rw [length_singleton]
      omega
  next many =>
    rw [fitsMove_iff] at many
    split
    · rw [length_setChunks, ← countP_eq_length_filter]
      omega
    · rw [length_setChunks, ← countP_eq_length_filter]
      omega

/-- The shift of an instruction that sets one chunk. -/
def Instr.shift? : Instr → Option Nat
  | movz _ _ shift | movn _ _ shift | movk _ _ shift => some shift
  | _ => none

/-- The code of a constant leaves it in the register and changes nothing else.  Its shifts are
those of chunks, a whole constant in one instruction has one chunk, and there are no more
instructions than chunks that differ from zeros, or from ones. -/
theorem loadConst_exact (dest : Reg) (word : Word) :
    (∀ platform state, execAll platform (loadConst dest word) state = state.set dest word ∧
      (dest ≠ .zr → (execAll platform (loadConst dest word) state).get dest = word) ∧
      ∀ other ≠ dest, (execAll platform (loadConst dest word) state).get other = state.get other) ∧
    (∀ instr ∈ loadConst dest word, ∀ shift, instr.shift? = some shift → shift ∈ [0, 16, 32, 48]) ∧
    (∀ target value, .movConst target value ∈ loadConst dest word → HasOneChunk value) ∧
    (loadConst dest word).length =
      max 1 (min (chunksBesides 0 word) (chunksBesides (BitVec.allOnes 16) word)) := by
  refine ⟨fun platform state => ?_, fun instr member shift shifted => ?_,
    fun target value member => ?_, length_loadConst dest word⟩
  · rw [execAll_loadConst]
    exact ⟨rfl, State.get_set_self _ _ _, fun other differ => State.get_set_ne _ _ differ⟩
  · cases setsConst_loadConst dest word instr member with
    | whole single => cases shifted
    | zeros bits listed | ones bits listed | keep bits listed =>
      cases shifted
      exact listed
  · cases setsConst_loadConst dest word _ member with
    | whole single => exact single

/-- Two chunks of ones and one of zeros: the ones are filled in, the zeros are set. -/
theorem loadConst_exact_mixed :
    loadConst (.x 9) 0xffff0000ffff1234 = [.movn (.x 9) 0xedcb 0, .movk (.x 9) 0 32] ∧
      Reg.x 9 ≠ .zr ∧ Reg.x 10 ≠ Reg.x 9 ∧
      (∀ platform state,
        (execAll platform (loadConst (.x 9) 0xffff0000ffff1234) state).get (.x 9) =
          0xffff0000ffff1234 ∧
        (execAll platform (loadConst (.x 9) 0xffff0000ffff1234) state).get (.x 10) =
          state.get (.x 10)) ∧
      (loadConst (.x 9) 0xffff0000ffff1234).length = 2 := by
  obtain ⟨sets, _, _, length⟩ := loadConst_exact (.x 9) 0xffff0000ffff1234
  refine ⟨by decide, by decide, by decide, fun platform state => ?_, length.trans (by decide)⟩
  obtain ⟨_, here, others⟩ := sets platform state
  exact ⟨here (by decide), others _ (by decide)⟩

end ArmBackend.Machine
