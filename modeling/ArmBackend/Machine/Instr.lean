import ArmBackend.Machine.Register
import ArmBackend.Word

/-!
# Machine instructions

The instructions that the code generator emits, with the labels, directives and
comments that stand between them in a listing.
-/

namespace ArmBackend.Machine

/-- The constant of an addition, subtraction or comparison; it may be shifted by twelve bits. -/
structure ArithImm where
  digits : Nat
  shifted : Bool
deriving DecidableEq

namespace ArithImm

def value (imm : ArithImm) : Nat :=
  if imm.shifted then imm.digits * 4096 else imm.digits

/-- The form of a number that has one: twelve bits, or twelve bits above twelve zeros. -/
def ofInt? (number : Int) : Option ArithImm :=
  if 0 ≤ number ∧ number < 4096 then some ⟨number.toNat, false⟩
  else if 0 < number ∧ number % 4096 = 0 ∧ number / 4096 < 4096 then
    some ⟨(number / 4096).toNat, true⟩
  else none

def text (imm : ArithImm) : String :=
  "#" ++ toString imm.digits ++ if imm.shifted then ", lsl #12" else ""

end ArithImm

inductive IntOp where
  | add
  | sub
  | mul
  | sdiv
  | and
  | orr
deriving DecidableEq

namespace IntOp

def name : IntOp → String
  | add => "add"
  | sub => "sub"
  | mul => "mul"
  | sdiv => "sdiv"
  | and => "and"
  | orr => "orr"

end IntOp

inductive FloatOp where
  | add
  | sub
  | mul
  | div
deriving DecidableEq

namespace FloatOp

def name : FloatOp → String
  | add => "fadd"
  | sub => "fsub"
  | mul => "fmul"
  | div => "fdiv"

end FloatOp

/-- A line of assembly: a machine instruction, or one of the last four forms. -/
inductive Instr where
  | mov (dest source : Reg)
  /-- the constant has a form with a single chunk -/
  | movConst (dest : Reg) (value : Word)
  /-- set the chunk at the shift and clear the others -/
  | movz (dest : Reg) (chunk : BitVec 16) (shift : Nat)
  /-- set the complement of the chunk at the shift and fill the others with ones -/
  | movn (dest : Reg) (chunk : BitVec 16) (shift : Nat)
  /-- set the chunk at the shift and keep the others -/
  | movk (dest : Reg) (chunk : BitVec 16) (shift : Nat)
  /-- copy the bits to a double-precision register -/
  | fmovTo (dest : FloatReg) (source : Reg)
  /-- copy the bits from a double-precision register -/
  | fmovFrom (dest : Reg) (source : FloatReg)
  | int (op : IntOp) (dest left right : Reg)
  | addImm (dest source : Reg) (imm : ArithImm)
  | subImm (dest source : Reg) (imm : ArithImm)
  | neg (dest source : Reg)
  | float (op : FloatOp) (dest left right : FloatReg)
  | fneg (dest source : FloatReg)
  /-- round toward zero to an integral value -/
  | frintz (dest source : FloatReg)
  /-- `minuend - left * right` -/
  | fmsub (dest left right minuend : FloatReg)
  /-- the signed integer as a double -/
  | scvtf (dest : FloatReg) (source : Reg)
  /-- the double as a signed integer, toward zero -/
  | fcvtzs (dest : Reg) (source : FloatReg)
  | fcmp (left right : FloatReg)
  | cmp (left right : Reg)
  | cmpImm (left : Reg) (imm : ArithImm)
  /-- one if the last comparison satisfies the condition, else zero -/
  | cset (dest : Reg) (cond : Cond)
  /-- load at any byte offset within the short signed range -/
  | ldur (dest base : Reg) (offset : Int)
  | stur (source base : Reg) (offset : Int)
  /-- load at a scaled offset -/
  | ldr (dest base : Reg) (offset : Nat)
  | str (source base : Reg) (offset : Nat)
  /-- load at base plus index, which counts words if scaled -/
  | ldrAt (dest base index : Reg) (scaled : Bool)
  | strAt (source base index : Reg) (scaled : Bool)
  /-- move the base, then store a pair there -/
  | stpPre (first second base : Reg) (offset : Int)
  /-- load a pair, then move the base -/
  | ldpPost (first second base : Reg) (offset : Int)
  /-- the page of a symbol -/
  | adrp (dest : Reg) (symbol : String)
  /-- add the place of a symbol within its page -/
  | addLow (dest source : Reg) (symbol : String)
  | b (target : String)
  | cbz (source : Reg) (target : String)
  | cbnz (source : Reg) (target : String)
  | bl (symbol : String)
  | ret
  | label (name : String)
  | directive (text : String)
  | comment (text : String)
  /-- stands where an instruction has no machine code -/
  | placeholder (text : String)
deriving DecidableEq

namespace Instr

def isMachine : Instr → Bool
  | label _ | directive _ | comment _ | placeholder _ => false
  | _ => true

/-- The label that a branch within the function goes to. -/
def target? : Instr → Option String
  | b target => some target
  | cbz _ target => some target
  | cbnz _ target => some target
  | _ => none

/-- Ends a stretch of straight-line code. -/
def isBoundary : Instr → Bool
  | b _ | cbz _ _ | cbnz _ _ | bl _ | ret | label _ | directive _ | placeholder _ => true
  | _ => false

def line (mnemonic : String) (operands : List String) : String :=
  mnemonic ++ " " ++ String.intercalate ", " operands

/-- A 16-bit chunk and where it is put. -/
def chunkText (chunk : BitVec 16) (shift : Nat) : String :=
  "#0x" ++ hexText chunk.toNat ++ if shift = 0 then "" else ", lsl #" ++ toString shift

/-- A byte offset in brackets behind a base. -/
def atOffset (base : Reg) (offset : Int) : String :=
  "[" ++ base.text ++ ", #" ++ toString offset ++ "]"

/-- A scaled offset; zero is left out. -/
def atScaled (base : Reg) (offset : Nat) : String :=
  if offset = 0 then "[" ++ base.text ++ "]" else atOffset base offset

def atIndex (base index : Reg) (scaled : Bool) : String :=
  "[" ++ base.text ++ ", " ++ index.text ++ (if scaled then ", lsl #3" else "") ++ "]"

/-- The line without its indentation. -/
def text : Instr → String
  | mov dest source => line "mov" [dest.text, source.text]
  | movConst dest value => line "mov" [dest.text, "#" ++ value.signedText]
  | movz dest chunk shift => line "movz" [dest.text, chunkText chunk shift]
  | movn dest chunk shift => line "movn" [dest.text, chunkText chunk shift]
  | movk dest chunk shift => line "movk" [dest.text, chunkText chunk shift]
  | fmovTo dest source => line "fmov" [dest.text, source.text]
  | fmovFrom dest source => line "fmov" [dest.text, source.text]
  | int op dest left right => line op.name [dest.text, left.text, right.text]
  | addImm dest source imm => line "add" [dest.text, source.text, imm.text]
  | subImm dest source imm => line "sub" [dest.text, source.text, imm.text]
  | neg dest source => line "neg" [dest.text, source.text]
  | float op dest left right => line op.name [dest.text, left.text, right.text]
  | fneg dest source => line "fneg" [dest.text, source.text]
  | frintz dest source => line "frintz" [dest.text, source.text]
  | fmsub dest left right minuend =>
    line "fmsub" [dest.text, left.text, right.text, minuend.text]
  | scvtf dest source => line "scvtf" [dest.text, source.text]
  | fcvtzs dest source => line "fcvtzs" [dest.text, source.text]
  | fcmp left right => line "fcmp" [left.text, right.text]
  | cmp left right => line "cmp" [left.text, right.text]
  | cmpImm left imm => line "cmp" [left.text, imm.text]
  | cset dest cond => line "cset" [dest.text, cond.text]
  | ldur dest base offset => line "ldur" [dest.text, atOffset base offset]
  | stur source base offset => line "stur" [source.text, atOffset base offset]
  | ldr dest base offset => line "ldr" [dest.text, atScaled base offset]
  | str source base offset => line "str" [source.text, atScaled base offset]
  | ldrAt dest base index scaled => line "ldr" [dest.text, atIndex base index scaled]
  | strAt source base index scaled => line "str" [source.text, atIndex base index scaled]
  | stpPre first second base offset =>
    line "stp" [first.text, second.text, atOffset base offset ++ "!"]
  | ldpPost first second base offset =>
    line "ldp" [first.text, second.text, "[" ++ base.text ++ "]", "#" ++ toString offset]
  | adrp dest symbol => line "adrp" [dest.text, symbol]
  | addLow dest source symbol => line "add" [dest.text, source.text, ":lo12:" ++ symbol]
  | b target => line "b" [target]
  | cbz source target => line "cbz" [source.text, target]
  | cbnz source target => line "cbnz" [source.text, target]
  | bl symbol => line "bl" [symbol]
  | ret => "ret"
  | label name => name ++ ":"
  | directive text => text
  | comment text => "// " ++ text
  | placeholder text => "// unimplemented: " ++ text

/-- The line of a listing: labels start it, all else is indented. -/
def listingLine (instr : Instr) : String :=
  match instr with
  | label _ => instr.text ++ "\n"
  | _ => "    " ++ instr.text ++ "\n"

def listing (code : List Instr) : String :=
  String.join (code.map listingLine)

end Instr

end ArmBackend.Machine
