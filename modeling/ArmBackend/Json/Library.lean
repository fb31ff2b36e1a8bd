import ArmBackend.Json.Number
import ArmBackend.Json.Reader
import ArmBackend.Json.Writer

/-!
# Libraries for documents

Documents are printed and read by a library, and nothing else is asked of one.  The
library at hand has numerals in its texts; it is standard but for the choice of the
numerals of reals, and of what numerals denote.
-/

namespace ArmBackend.Json

structure Library where
  print : Document → String
  parse? : String → Option Document

/-- The numeral of each finite real, and the number of each numeral if it is in range. -/
structure NumberFormat where
  real : Binary64 → Numeral
  read? : Numeral → Option Number

namespace NumberFormat

/-- Infinities and NaN have no numeral. -/
def write (format : NumberFormat) : Option Number → Json Numeral
  | none => .null
  | some (.natural word) => .number (.ofInt word.toNat)
  | some (.negative word) => .number (.ofInt word.toInt)
  | some (.real value) =>
    if value.isNaN || value.isInfinite then .null else .number (format.real value)

def library (format : NumberFormat) : Library where
  print document := (document.replace format.write).text
  parse? text := (Json.parse? text).map (replace fun numeral => .number (format.read? numeral))

end NumberFormat

/-- Numbers have shortest digits; from `1e-5` up to below `1e+16` they have no exponent. -/
def realLayout : DecimalLayout where
  plainFrom := -5
  plainBelow := 16
  tie := .even

/-- The library that the program runs with. -/
def Library.standard : Library :=
  NumberFormat.library ⟨realLayout.numeral, Numeral.number?⟩

end ArmBackend.Json
