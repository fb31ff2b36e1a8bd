import ArmBackend.Command.Workdir

/-!
# The command

The command line over the real file system.
-/

namespace ArmBackend.Command

/-- The number of a system error, which may be given as its negative in 32 bits. -/
def errorNumber (code : UInt32) : Nat :=
  if code.toNat < 2147483648 then code.toNat else 4294967296 - code.toNat

/-- The text of a system error of the given number; the details are for errors without a name. -/
def numberedText (code : UInt32) (details : String) : String :=
  match FileError.ofNumber? (errorNumber code) with
  | some error => error.text
  | none => FileError.numbered details (errorNumber code)

def osText : IO.Error → String
  | .noFileOrDirectory _ code details => numberedText code details
  | .permissionDenied _ code _ => numberedText code "Permission denied"
  | .inappropriateType _ code details => numberedText code details
  | .alreadyExists _ code details => numberedText code details
  | .noSuchThing _ code details => numberedText code details
  | .resourceExhausted _ code details => numberedText code details
  | .invalidArgument _ code details => numberedText code details
  | .otherError code details => numberedText code details
  | error => toString error

def writeAll (path content : String) : IO Unit :=
  IO.FS.withFile path .write fun handle => do
    handle.putStr content
    handle.flush

/-- Run phases in order until one fails, and time each of them. -/
def runTimed (input : Input) : Session → List Phase → IO Session
  | session, [] => return session
  | session, phase :: rest => do
    let begun ← IO.monoNanosNow
    let step ← IO.lazyPure fun _ => session.run input phase
    let ended ← IO.monoNanosNow
    let ran := session.stats.phases.length < step.session.stats.phases.length
    let session :=
      if ran then
        { step.session with stats := step.session.stats.timeLast ((ended - begun) / 1000) }
      else step.session
    if step.error.isSome then return session else runTimed input session rest

def planOf (request : Request) : IO Plan := do
  match ← (IO.FS.readBinFile request.input).toBaseIO with
  | .error error => return .unreadable request.input (osText error)
  | .ok bytes =>
    match String.fromUTF8? bytes with
    | none => return .unreadable request.input "stream did not contain valid UTF-8"
    | some text =>
      match Input.parse? .standard text with
      | none => return .malformed
      | some input =>
        let session ← runTimed input (.start request.options) request.options.phases
        return .ofSession request session

def failWith (reason : String) : IO Exit := do
  IO.eprintln (failureLine reason)
  return .failure

/-- Carry out effects; the first file that cannot be written ends them. -/
def performAll (failure : Option String) : List Effect → IO Exit
  | [] =>
    match failure with
    | none => return .success
    | some reason => failWith reason
  | .tell line :: rest => do
    IO.eprintln line
    performAll failure rest
  | .print text :: rest => do
    IO.print text
    performAll failure rest
  | .save path content notice :: rest => do
    match ← (writeAll path content).toBaseIO with
    | .error error => failWith (osText error)
    | .ok () =>
      IO.eprintln notice
      performAll failure rest

def runWords (words : List String) : IO Exit :=
  match Invocation.ofWords? words with
  | none => do
    IO.eprint helpText
    return .misuse
  | some (.answer text) => do
    IO.print text
    return .success
  | some (.compile request) => do
    let plan ← planOf request
    performAll plan.failure plan.effects

end ArmBackend.Command

def main (words : List String) : IO UInt32 := do
  let exit ← ArmBackend.Command.runWords words
  return exit.code.toUInt32
