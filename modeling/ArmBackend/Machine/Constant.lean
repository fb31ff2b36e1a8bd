import ArmBackend.Machine.Instr

/-!
# Constants in registers

A register is loaded with a word by one instruction if a single 16-bit chunk
tells the word from all zeros or all ones, and chunk by chunk otherwise.
-/

namespace ArmBackend.Machine

/-- A 16-bit part of a word and how far it is shifted. -/
structure Chunk where
  bits : BitVec 16
  shift : Nat
deriving DecidableEq

namespace Chunk

/-- The four chunks of a word, the lowest first. -/
def ofWord (word : Word) : List Chunk :=
  [0, 16, 32, 48].map fun shift => ⟨word.extractLsb' shift 16, shift⟩

def isZero (chunk : Chunk) : Bool :=
  chunk.bits == 0

def isOnes (chunk : Chunk) : Bool :=
  chunk.bits == BitVec.allOnes 16

end Chunk

/-- One `mov` can set the word: at most one chunk is not zero, or at most one is not all ones. -/
def fitsMove (word : Word) : Bool :=
  let chunks := Chunk.ofWord word
  decide (chunks.countP (!·.isZero) ≤ 1) || decide (chunks.countP (!·.isOnes) ≤ 1)

/-- Set the first chunk by the given instruction and the others after it. -/
def setChunks (dest : Reg) (start : Chunk → Instr) : List Chunk → List Instr
  | [] => []
  | first :: rest => start first :: rest.map fun chunk => .movk dest chunk.bits chunk.shift

/-- Load a word into a register; the chunks that the first instruction sets right are left out. -/
def loadConst (dest : Reg) (word : Word) : List Instr :=
  let chunks := Chunk.ofWord word
  if fitsMove word then [.movConst dest word]
  else if chunks.countP Chunk.isZero < chunks.countP Chunk.isOnes then
    setChunks dest (fun chunk => .movn dest (~~~chunk.bits) chunk.shift)
      (chunks.filter (!·.isOnes))
  else
    setChunks dest (fun chunk => .movz dest chunk.bits chunk.shift) (chunks.filter (!·.isZero))

end ArmBackend.Machine
