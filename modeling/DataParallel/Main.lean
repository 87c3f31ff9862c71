import DataParallel.CommandLine.Arguments
import DataParallel.CommandLine.Session

/-! The command line program. -/

namespace DataParallel

/-- The number of a system error; some operations give it with the sign changed. -/
def Fault.number (code : UInt32) : Nat :=
  if code.toNat < 0x80000000 then code.toNat else 0x100000000 - code.toNat

/-- What the system said about a failed operation. -/
def Fault.ofError : IO.Error → Fault
  | .alreadyExists _ code details
  | .invalidArgument _ code details
  | .permissionDenied _ code details
  | .resourceExhausted _ code details
  | .inappropriateType _ code details
  | .noSuchThing _ code details
  | .interrupted _ code details
  | .noFileOrDirectory _ code details
  | .otherError code details
  | .resourceBusy code details
  | .resourceVanished code details
  | .unsupportedOperation code details
  | .hardwareFault code details
  | .unsatisfiedConstraints code details
  | .illegalOperation code details
  | .protocolError code details
  | .timeExpired code details => ⟨number code, details⟩
  | error => ⟨5, error.toString⟩

/-- What stands at a path. No such file, a file in place of a folder and a name that is too long all
mean that there is nothing. -/
def Entry.read (path : String) : IO Entry := do
  try return .file (← IO.FS.readBinFile path)
  catch error =>
    let fault := Fault.ofError error
    return if fault.code ∈ [2, 20, 36] then .missing
      else if fault.code = 21 then .folder
      else .unreadable fault

def Ink.ofEnvironment : IO Ink := do
  let isTerminal ← (← IO.getStdout).isTty
  return .choose (← IO.getEnv "CLICOLOR_FORCE") (← IO.getEnv "NO_COLOR") (← IO.getEnv "CLICOLOR")
    isTerminal

/-- Reports a command line that cannot be followed. -/
def refuse (error : UsageError) : IO UInt32 := do
  IO.eprintln (Session.alarm .plain error.message)
  return 2

def lowerFiles (options : Options) (ink : Ink) : IO UInt32 := do
  let sources ← options.sources.mapM fun path => return ⟨path, ← Entry.read path⟩
  match Session.sourceError? sources with
  | some error => refuse error
  | none =>
    let transcript := Session.run options ink sources
    transcript.messages.forM IO.eprintln
    let code : UInt32 := if transcript.failed then 1 else 0
    match options.output with
    | none =>
      IO.print transcript.output
      return code
    | some path =>
      try
        IO.FS.writeFile path transcript.output
        return code
      catch error =>
        IO.eprintln (Session.unwritten ink path (.ofError error))
        return 1

end DataParallel

open DataParallel in
def main (arguments : List String) : IO UInt32 := do
  match Request.ofArguments arguments with
  | .error error => refuse error
  | .ok .version =>
    IO.print Session.versionText
    return 0
  | .ok .help =>
    IO.print Session.helpText
    return 0
  | .ok (.lower options) => lowerFiles options (← Ink.ofEnvironment)
