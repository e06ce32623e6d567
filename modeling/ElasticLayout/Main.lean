import ElasticLayout.CommandLine.Report

/-!
# The command-line program

Reads the model file of a request, and writes its report.
-/

namespace ElasticLayout.CommandLine

/-- How to call the program. -/
def usage : String :=
  "Usage: elastic-layout [-v] solve FILE [-f pretty|json] [--max-iterations N]\n"
    ++ "       elastic-layout [-v] min-size FILE WIDTH HEIGHT [-f pretty|json]\n"
    ++ "       elastic-layout [-v] max-size FILE WIDTH HEIGHT [-f pretty|json]\n"
    ++ "       elastic-layout [-v] check FILE\n"

/-- The system's number of an error; some errors carry its negative. -/
def systemNumber (code : UInt32) : Nat := if code < 0x80000000 then code.toNat else (-code).toNat

/-- The failure behind an error of the system. -/
def failureOf (e : IO.Error) : ReadFailure :=
  let named (code : UInt32) (text : String) : ReadFailure :=
    let number := systemNumber code
    (ReadFailure.ofNumber? number).getD (.other text number)
  match e with
  | .noFileOrDirectory _ code text | .interrupted _ code text => named code text
  | .alreadyExists _ code text | .invalidArgument _ code text | .permissionDenied _ code text
  | .resourceExhausted _ code text | .inappropriateType _ code text
  | .noSuchThing _ code text => named code text
  | .otherError code text | .resourceBusy code text | .resourceVanished code text
  | .unsupportedOperation code text | .hardwareFault code text
  | .unsatisfiedConstraints code text | .illegalOperation code text | .protocolError code text
  | .timeExpired code text => named code text
  | .unexpectedEof | .userError _ => .other (toString e) 5

/-- Read a file, or find out why it cannot be read. -/
def readContents (file : String) : IO (Except ReadFailure String) := do
  try
    match String.fromUTF8? (← IO.FS.readBinFile file) with
    | some text => return .ok text
    | none => return .error .notText
  catch e => return .error (failureOf e)

/-- The lines of the log that a reader asked for. -/
def logLines (verbosity : Nat) (events : List (Event Float)) : List String :=
  let wanted : Event.Level → Bool
    | .warning => true
    | .stage => 0 < verbosity
    | .step => 1 < verbosity
  (events.filter (wanted ·.level)).map fun event => "[" ++ event.text ++ "]\n"

end ElasticLayout.CommandLine

open ElasticLayout.CommandLine

/-- The program. -/
def main (words : List String) : IO UInt32 := do
  let some request := Request.parse? words
    | IO.eprint usage
      return 2
  let contents ← readContents request.file
  let start ← IO.monoNanosNow
  let report := request.run contents
  let exitCode := UInt32.ofNat report.exitCode
  let stop ← IO.monoNanosNow
  for line in logLines request.verbosity (report.events ()) do
    IO.eprint line
  IO.print (report.output ((stop - start).toFloat / 1000000.0))
  IO.eprint report.complaints
  return exitCode
