import ArmBackend.DataType

/-!
# Symbols

The names by which the assembly refers to labels, to the variables of the program
and to the routines of its run-time library.
-/

namespace ArmBackend.Machine.Symbol

/-- A label that is local to the assembly: a leading dot becomes `.L`, other names get a dot. -/
def ofLabel (name : String) : String :=
  match name.toList with
  | '.' :: rest => ".L" ++ String.ofList rest
  | _ => "." ++ name

/-- The memory of a variable of the whole program. -/
def ofGlobal (name : String) : String :=
  "lark_global_" ++ name

/-- The routine that prints a value of a type; a value of no type is printed as an integer. -/
def ofPrint (newline : Bool) (type : DataType) : String :=
  "lark_" ++ (if newline then "println" else "print") ++ "_" ++
    match type with
    | .void => DataType.int.name
    | other => other.name

end ArmBackend.Machine.Symbol
