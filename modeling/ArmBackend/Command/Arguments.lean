import ArmBackend.Command.Help
import ArmBackend.Session

/-!
# Arguments

How the words behind the command are understood.  They are taken from left to
right; a call for help is answered as soon as it is reached, and a word that does
not fit makes the whole command a mistake.
-/

namespace ArmBackend.Command

/-- What to compile, how, and where the results go. -/
structure Request where
  input : String
  output : Option String := none
  emitIr : Option String := none
  printIr : Bool := false
  stats : Bool := false
  options : Options := {}
deriving DecidableEq

inductive Invocation where
  | compile (request : Request)
  /-- print a text about the command itself -/
  | answer (text : String)
deriving DecidableEq

/-- A word by its outer form. -/
inductive Token where
  /-- two dashes alone: no options follow -/
  | endOfOptions
  /-- two dashes before a name, perhaps with a value behind an equals sign -/
  | long (name : String) (value : Option String)
  | short (letters : List Char)
  /-- anything else, a lone dash included -/
  | plain (text : String)
deriving DecidableEq

namespace Token

def ofLong (content : List Char) : Token :=
  match content.dropWhile (· != '=') with
  | [] => long (String.ofList content) none
  | _ :: value =>
    long (String.ofList (content.takeWhile (· != '='))) (some (String.ofList value))

def ofText (text : String) : Token :=
  match text.toList with
  | ['-', '-'] => endOfOptions
  | '-' :: '-' :: content => ofLong content
  | '-' :: letter :: more => short (letter :: more)
  | _ => plain text

end Token

inductive ValueOption where
  | output
  | emitIr
deriving DecidableEq

namespace ValueOption

def ofName? (name : String) : Option ValueOption :=
  if name = "output" then some output
  else if name = "emit-ir" then some emitIr
  else none

end ValueOption

/-- The options that are set by their name alone. -/
inductive Flag where
  | noIrOpt
  | noAsmOpt
  | printIr
  | stats
  | suppressReturn
deriving DecidableEq

namespace Flag

def name : Flag → String
  | noIrOpt => "no-ir-opt"
  | noAsmOpt => "no-asm-opt"
  | printIr => "print-ir"
  | stats => "stats"
  | suppressReturn => "suppress-redundant-return"

def all : List Flag :=
  [noIrOpt, noAsmOpt, printIr, stats, suppressReturn]

def ofName? (text : String) : Option Flag :=
  all.find? fun flag => flag.name == text

end Flag

/-- What the words so far ask for. -/
structure Draft where
  input : Option String := none
  output : Option String := none
  emitIr : Option String := none
  flags : List Flag := []

namespace Draft

/-- A path may be given once and is not empty. -/
def once (earlier : Option String) (path : String) : Option (Option String) :=
  if earlier.isSome || path.isEmpty then none else some (some path)

def setInput (draft : Draft) (path : String) : Option Draft := do
  let input ← once draft.input path
  return { draft with input }

def setValue (draft : Draft) (option : ValueOption) (path : String) : Option Draft :=
  match option with
  | .output => do
    let output ← once draft.output path
    return { draft with output }
  | .emitIr => do
    let emitIr ← once draft.emitIr path
    return { draft with emitIr }

def setFlag (draft : Draft) (flag : Flag) : Option Draft :=
  if draft.flags.contains flag then none else some { draft with flags := flag :: draft.flags }

/-- The words are at their end; the input must have been named. -/
def finish (draft : Draft) : Option Invocation := do
  let input ← draft.input
  return .compile {
    input
    output := draft.output
    emitIr := draft.emitIr
    printIr := draft.flags.contains .printIr
    stats := draft.flags.contains .stats
    options := {
      optimizeIr := !draft.flags.contains .noIrOpt
      optimizeAsm := !draft.flags.contains .noAsmOpt
      suppressReturn := draft.flags.contains .suppressReturn } }

/-- Words that are inputs whatever they look like. -/
def readInputs (draft : Draft) : List String → Option Invocation
  | [] => draft.finish
  | word :: rest => do
    let draft ← draft.setInput word
    draft.readInputs rest

def isValue (word : String) : Bool :=
  match Token.ofText word with
  | .plain _ => true
  | _ => false

/-- The words behind `compile`. -/
def read (draft : Draft) : List String → Option Invocation
  | [] => draft.finish
  | word :: rest =>
    /- An option without a value of its own takes the next word. -/
    let takeNext (option : ValueOption) : Option Invocation :=
      match rest with
      | value :: rest =>
        if isValue value then do
          let draft ← draft.setValue option value
          draft.read rest
        else none
      | [] => none
    let take (option : ValueOption) (value : String) : Option Invocation := do
      let draft ← draft.setValue option value
      draft.read rest
    match Token.ofText word with
    | .endOfOptions => draft.readInputs rest
    | .plain text => do
      let draft ← draft.setInput text
      draft.read rest
    | .long name value =>
      match ValueOption.ofName? name, Flag.ofName? name, value with
      | some option, _, some value => take option value
      | some option, _, none => takeNext option
      | none, some flag, none => do
        let draft ← draft.setFlag flag
        draft.read rest
      | none, none, none => if name = "help" then some (.answer compileHelpText) else none
      | none, _, some _ => none
    | .short ('h' :: _) => some (.answer compileHelpText)
    | .short ['o'] => takeNext .output
    | .short ('o' :: '=' :: value) => take .output (String.ofList value)
    | .short ('o' :: value) => take .output (String.ofList value)
    | .short _ => none

end Draft

namespace Invocation

/-- The answer to `help` with topics behind it. -/
def ofTopics : List String → Option Invocation
  | [] => some (.answer helpText)
  | ["compile"] => some (.answer compileHelpText)
  | ["help"] => some (.answer helpHelpText)
  | _ => none

/-- What the words ask for; nothing if they are a mistake. -/
def ofWords? : List String → Option Invocation
  | [] => none
  | word :: rest =>
    match Token.ofText word with
    | .plain "compile" => Draft.read {} rest
    | .plain "help" => ofTopics rest
    | .long "help" none => some (.answer helpText)
    | .long "version" none => some (.answer versionText)
    | .short ('h' :: _) => some (.answer helpText)
    | .short ('V' :: _) => some (.answer versionText)
    | _ => none

end Invocation

end ArmBackend.Command
