import ArmBackend.Position

/-!
# Errors

An error either belongs to a place in the source or concerns the compilation as
a whole.
-/

namespace ArmBackend

/-- The stage that found fault with a place in the source. -/
inductive Stage where
  | lexical
  | parse
  | semantic
  | codegen
deriving DecidableEq

/-- Where an error without a place comes from. -/
inductive Origin where
  | input
  | io
  | internal
deriving DecidableEq

inductive CompileError where
  | located (stage : Stage) (position : Position) (message : String)
  | general (origin : Origin) (message : String)
deriving DecidableEq

namespace Stage

def title : Stage → String
  | lexical => "Lexical error"
  | parse => "Parse error"
  | semantic => "Semantic error"
  | codegen => "Code generation error"

end Stage

namespace Origin

def title : Origin → String
  | input => "Invalid compiler input"
  | io => "IO error"
  | internal => "Internal compiler error"

end Origin

namespace CompileError

def internal (message : String) : CompileError :=
  .general .internal message

def message : CompileError → String
  | located _ _ message => message
  | general _ message => message

def position? : CompileError → Option Position
  | located _ position _ => some position
  | general _ _ => none

/-- The message with the kind of error and its place in front. -/
def text : CompileError → String
  | located stage position message => stage.title ++ " at " ++ position.text ++ ": " ++ message
  | general origin message => origin.title ++ ": " ++ message

end CompileError

end ArmBackend
