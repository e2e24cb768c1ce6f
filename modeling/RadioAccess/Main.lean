import RadioAccess.CommandLine

/-!
# The Program

Reads the configuration, prints the log to the error stream and the table to the output stream.
-/

namespace RadioAccess.Program

/-- The number of a system error.  Some are reported with a minus sign. -/
def errorNumber (code : UInt32) : Nat := code.toInt32.toInt.natAbs

def reasonOf : IO.Error → ReadError
  | .alreadyExists _ code _ => .refused (errorNumber code)
  | .otherError code _ => .refused (errorNumber code)
  | .resourceBusy code _ => .refused (errorNumber code)
  | .resourceVanished code _ => .refused (errorNumber code)
  | .unsupportedOperation code _ => .refused (errorNumber code)
  | .hardwareFault code _ => .refused (errorNumber code)
  | .unsatisfiedConstraints code _ => .refused (errorNumber code)
  | .illegalOperation code _ => .refused (errorNumber code)
  | .protocolError code _ => .refused (errorNumber code)
  | .timeExpired code _ => .refused (errorNumber code)
  | .interrupted _ code _ => .refused (errorNumber code)
  | .noFileOrDirectory _ code _ => .refused (errorNumber code)
  | .invalidArgument _ code _ => .refused (errorNumber code)
  | .permissionDenied _ code _ => .refused (errorNumber code)
  | .resourceExhausted _ code _ => .refused (errorNumber code)
  | .inappropriateType _ code _ => .refused (errorNumber code)
  | .noSuchThing _ code _ => .refused (errorNumber code)
  | .unexpectedEof => .notText
  | .userError _ => .notText

/-- The text of a file, or the reason why there is none. -/
def readText (path : String) : IO (Except ReadError String) := do
  match ← (IO.FS.readBinFile path).toBaseIO with
  | .error error => return .error (reasonOf error)
  | .ok bytes =>
    match String.fromUTF8? bytes with
    | some text => return .ok text
    | none => return .error .notText

def print (outcome : Outcome) : IO UInt32 := do
  for notice in outcome.notices do
    IO.eprintln ("[" ++ notice.severity.label ++ "] " ++ notice.text)
  for line in outcome.output do
    IO.println line
  return outcome.exitCode.toUInt32

end RadioAccess.Program

def main (arguments : List String) : IO UInt32 := do
  let contents ←
    match arguments.head? with
    | none => pure (.error .notFound)
    | some path => RadioAccess.Program.readText path
  RadioAccess.Program.print (RadioAccess.CommandLine.run (fun _ ↦ contents) arguments)
