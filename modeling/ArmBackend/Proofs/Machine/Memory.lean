import ArmBackend.Word
import Mathlib.Algebra.Order.Ring.Int

/-!
# Memory

Memory has a byte at every address of 64 bits, and addresses wrap around.  Words are
stored with their lowest byte first.  Spans of addresses tell which words a store leaves
alone.
-/

namespace ArmBackend.Machine

/-- The addresses from a base upward. -/
structure Span where
  base : Word
  size : Nat

namespace Span

/-- The address is one of the span. -/
def Has (span : Span) (address : Word) : Prop :=
  (address - span.base).toNat < span.size

instance (span : Span) (address : Word) : Decidable (span.Has address) :=
  inferInstanceAs (Decidable (_ < _))

/-- The eight addresses of the word at an address. -/
def word (address : Word) : Span :=
  ⟨address, 8⟩

/-- The spans have no address in common. -/
def Apart (left right : Span) : Prop :=
  ∀ address, left.Has address → ¬ right.Has address

theorem Apart.symm {left right : Span} (apart : left.Apart right) : right.Apart left :=
  fun address inRight inLeft => apart address inLeft inRight

/-- Every address of the first span is one of the second. -/
def Inside (inner outer : Span) : Prop :=
  ∀ address, inner.Has address → outer.Has address

theorem Apart.inside {left right inner outer : Span} (apart : left.Apart right)
    (one : inner.Inside left) (two : outer.Inside right) : inner.Apart outer :=
  fun address inInner inOuter => apart address (one address inInner) (two address inOuter)

/-- A part of a span lies inside it. -/
theorem inside_of_offset {span : Span} {offset size : Nat} (fits : offset + size ≤ span.size)
    (small : span.size ≤ 2 ^ 64) :
    Span.Inside ⟨span.base + BitVec.ofNat 64 offset, size⟩ span := by
  intro address has
  unfold Has at has ⊢
  dsimp only at has
  rcases Nat.eq_zero_or_pos size with rfl | some
  · exact absurd has (Nat.not_lt_zero _)
  have split : address - span.base =
      (address - (span.base + BitVec.ofNat 64 offset)) + BitVec.ofNat 64 offset := by
    bv_omega
  rw [split, BitVec.toNat_add, BitVec.toNat_ofNat,
    Nat.mod_eq_of_lt (show offset < 2 ^ 64 by omega), Nat.mod_eq_of_lt (by omega)]
  omega

theorem apart_of_distance {base : Word} {first second : Int} {size other : Nat}
    (below : first + size ≤ second ∨ second + other ≤ first)
    (near : first - second + size ≤ 2 ^ 64) (far : second - first + other ≤ 2 ^ 64) :
    Span.Apart ⟨base + BitVec.ofInt 64 first, size⟩ ⟨base + BitVec.ofInt 64 second, other⟩ := by
  intro address one two
  unfold Has at one two
  dsimp only at one two
  have split : address - (base + BitVec.ofInt 64 second) =
      (address - (base + BitVec.ofInt 64 first)) + BitVec.ofInt 64 (first - second) := by
    have apart : BitVec.ofInt 64 (first - second) = BitVec.ofInt 64 first - BitVec.ofInt 64 second := by
      rw [Int.sub_eq_add_neg, BitVec.ofInt_add, BitVec.ofInt_neg, BitVec.sub_eq_add_neg]
    rw [apart]
    bv_omega
  rw [split, BitVec.toNat_add, BitVec.toNat_ofInt] at two
  omega

end Span

/-- A byte at every address. -/
abbrev Memory := Word → BitVec 8

namespace Memory

/-- The word whose lowest byte is at an address. -/
def load (memory : Memory) (address : Word) : Word :=
  memory (address + 7#64) ++ memory (address + 6#64) ++ memory (address + 5#64) ++ memory (address + 4#64) ++
    memory (address + 3#64) ++ memory (address + 2#64) ++ memory (address + 1#64) ++ memory address

/-- Put a word at an address. -/
def store (memory : Memory) (address value : Word) : Memory :=
  fun place =>
    if (Span.word address).Has place then value.extractLsb' (8 * (place - address).toNat) 8
    else memory place

theorem load_eq {memory : Memory} {address : Word} {bytes : Nat → BitVec 8}
    (each : ∀ offset < 8, memory (address + BitVec.ofNat 64 offset) = bytes offset) :
    memory.load address = bytes 7 ++ bytes 6 ++ bytes 5 ++ bytes 4 ++ bytes 3 ++ bytes 2 ++
      bytes 1 ++ bytes 0 := by
  have first : memory address = bytes 0 := by simpa using each 0 (by decide)
  unfold load
  rw [first, each 1 (by decide), each 2 (by decide), each 3 (by decide), each 4 (by decide),
    each 5 (by decide), each 6 (by decide), each 7 (by decide)]

theorem load_congr {memory other : Memory} {address : Word}
    (same : ∀ place, (Span.word address).Has place → other place = memory place) :
    other.load address = memory.load address := by
  refine (load_eq fun offset small => same _ ?_).trans (load_eq fun _ _ => rfl).symm
  unfold Span.Has Span.word
  dsimp only
  bv_omega

/-- A load finds what was stored. -/
@[simp]
theorem load_store (memory : Memory) (address value : Word) :
    (memory.store address value).load address = value := by
  have each (offset : Nat) (small : offset < 8) :
      memory.store address value (address + BitVec.ofNat 64 offset) =
        value.extractLsb' (8 * offset) 8 := by
    have distance : (address + BitVec.ofNat 64 offset - address).toNat = offset := by bv_omega
    rw [store, if_pos (by unfold Span.Has Span.word; dsimp only; omega), distance]
  rw [load_eq each]
  iterate 7 rw [BitVec.extractLsb'_append_extractLsb'_eq_extractLsb' (by rfl)]
  exact BitVec.extractLsb'_eq_self

end Memory

end ArmBackend.Machine
