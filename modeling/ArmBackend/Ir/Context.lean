import ArmBackend.Ir.Program

/-!
# Issued names

What has been handed out so far in one compilation: temporaries, labels, string
ids, and the labels of the loops around the current statement.  Counters never go
back, so no name is issued twice.
-/

namespace ArmBackend.Ir

/-- Where `continue` and `break` go. -/
structure LoopLabels where
  continueTo : String
  breakTo : String
deriving DecidableEq

structure Context where
  temps : Nat := 0
  labels : Nat := 0
  strings : StringTable := .empty
  /-- the innermost loop first -/
  loops : List LoopLabels := []
deriving DecidableEq

namespace Context

def empty : Context := {}

def newTemp (context : Context) (type : DataType) : Operand × Context :=
  (.temp ("t" ++ toString context.temps) type, { context with temps := context.temps + 1 })

def newLabel (context : Context) : String × Context :=
  ("L" ++ toString context.labels, { context with labels := context.labels + 1 })

def intern (context : Context) (literal : String) : Nat × Context :=
  let (strings, id) := context.strings.intern literal
  (id, { context with strings })

def enterLoop (context : Context) (continueTo breakTo : String) : Context :=
  { context with loops := ⟨continueTo, breakTo⟩ :: context.loops }

def exitLoop (context : Context) : Context :=
  { context with loops := context.loops.tail }

def breakTarget? (context : Context) : Option String :=
  context.loops.head?.map LoopLabels.breakTo

def continueTarget? (context : Context) : Option String :=
  context.loops.head?.map LoopLabels.continueTo

end Context

end ArmBackend.Ir
