import ElasticLayout.CommandLine.Arguments
import ElasticLayout.ModelFile.Build
import ElasticLayout.ModelFile.Reader
import ElasticLayout.Spec.Listing

/-!
# Answers on the command line

* `ReadFailure` -- why a file cannot be read;
* `Report` -- exit status and texts, of which one may tell how long a solve took;
* `load` -- the model of a file, or the report of what is wrong with it;
* `Request.run` -- the report of a request, given the contents of its file.
-/

namespace ElasticLayout.CommandLine

open Decimal

/-- Why a file cannot be read. -/
inductive ReadFailure where
  /-- There is no such file. -/
  | missing
  /-- The file is not open to the caller. -/
  | denied
  /-- Something on the way to the file is no directory. -/
  | notDirectory
  /-- The file is a directory. -/
  | directory
  /-- The path, or a name in it, is too long. -/
  | nameTooLong
  /-- The bytes of the file are no text. -/
  | notText
  /-- Another failure: the system's text and number. -/
  | other (text : String) (number : Nat)
deriving DecidableEq

namespace ReadFailure

/-- The failure that the system numbers so, if it is one of those with a name here. -/
def ofNumber? : Nat → Option ReadFailure
  | 2 => some missing
  | 13 => some denied
  | 20 => some notDirectory
  | 21 => some directory
  | 36 => some nameTooLong
  | _ => none

/-- The system's text and number. -/
def describe (text : String) (number : Nat) : String :=
  text ++ " (os error " ++ toString number ++ ")"

/-- The reason within the wording of the failure. -/
def reason : ReadFailure → String
  | missing => describe "No such file or directory" 2
  | denied => describe "Permission denied" 13
  | notDirectory => describe "Not a directory" 20
  | directory => describe "Is a directory" 21
  | nameTooLong => describe "File name too long" 36
  | notText => "stream did not contain valid UTF-8"
  | other text number => describe text number

/-- The wording of the failure. -/
def message (f : ReadFailure) : String := "cannot read model: " ++ f.reason

end ReadFailure

/-- The answer to a request. -/
structure Report where
  /-- Exit status. -/
  exitCode : Nat
  /-- The answer, given the milliseconds that the solve took. -/
  output : Float → String := fun _ => ""
  /-- Complaints. -/
  complaints : String := ""
  /-- What happened on the way. -/
  events : Unit → List (Event Float) := fun _ => []

/-- The report of a failure. -/
def failure (complaints : String) : Report := { exitCode := 1, complaints }

/-- The model of a file, or the report of what is wrong with it. -/
def load (file : String) (contents : Except ReadFailure String) (options : Options Float) :
    Except Report (LoadedModel Float) :=
  let unreadable (reason : String) := failure ("Error loading " ++ file ++ ": " ++ reason ++ "\n")
  match contents with
  | .error reason => .error (unreadable reason.message)
  | .ok source =>
    match ModelFile.parse? source with
    | none => .error (unreadable "invalid model JSON:")
    | some description =>
      match description.build options with
      | .ok model => .ok model
      | .error e => .error (failure ("✗ " ++ file ++ " has errors:\n  " ++ e.message ++ "\n"))

/-! ### Commands -/

/-- The line of a named value. -/
def valueLine (s : Spec Float) (name : String) (id : VariableId) : String :=
  let value := (s.value? id).getD Scalar.nan
  "  " ++ padRight 20 name ++ " " ++ padLeft 12 (fixed 4 value) ++ "\n"

/-- The report of a solve. -/
def reportSolve (m : LoadedModel Float) (format : Format) : Report :=
  let s := m.spec.solve
  let values :=
    if s.result.isSuccess then
      "\n" ++ String.join (m.names.map fun (name, id) => valueLine s name id)
    else ""
  { exitCode := if s.result.isSuccess then 0 else 1
    output := fun milliseconds => match format with
      | .json => (s.snapshot milliseconds).pretty ++ "\n"
      | .pretty =>
        "Status: " ++ s.result.name ++ "\nSolving time: " ++ fixed 3 milliseconds ++ " ms\n"
          ++ values
    events := fun _ => m.spec.journal .solve }

/-- The text of a size, with the code of a solve that is not optimal. -/
def sizeText (size : Size Float) (result : ResultCode) (format : Format) : String :=
  match format with
  | .json => size.toJson.pretty ++ "\n"
  | .pretty =>
    (if size.same Size.unbounded then "Size: unbounded\n"
      else "Size: " ++ fixed 4 size.width ++ " x " ++ fixed 4 size.height ++ "\n")
      ++ (if result = .optimal then "" else "Status: " ++ result.name ++ "\n")

/-- The report of a size query between two named variables; the call is the operation that the
query performs. -/
def reportSize (m : LoadedModel Float) (width height : String) (format : Format)
    (query : VariableId → VariableId → Except (SpecError Float) (Size Float × Spec Float))
    (call : VariableId → VariableId → Operation Float) : Report :=
  match m.lookup? width, m.lookup? height with
  | some w, some h =>
    match query w h with
    | .error reason => failure ("Error: " ++ reason.message ++ "\n")
    | .ok (size, s) =>
      { exitCode := 0
        output := fun _ => sizeText size s.result format
        events := fun _ => m.spec.journal (call w h) }
  | _, _ =>
    failure ("Unknown variable: expected '" ++ width ++ "' and '" ++ height
      ++ "' to be declared\n")

/-- The report of a check. -/
def reportCheck (m : LoadedModel Float) (file : String) : Report :=
  let constraints := (m.spec.constraintList.map (·.2)).filter (·.role == .user)
  let soft := constraints.countP (·.isSoft)
  let elastic := constraints.countP (·.elastic.isSome)
  { exitCode := 0
    output := fun _ =>
      "✓ " ++ file ++ " is valid\n"
        ++ s!"  {m.names.length} variables\n"
        ++ s!"  {constraints.length} constraints ({soft} soft, {elastic} elastic)\n"
        ++ s!"  {m.spec.constraintStore.size} rows after expansion\n" }

/-- The options of a command. -/
def Command.options : Command → Options Float
  | .solve _ maxIterations => { Options.default with maxIterations }
  | _ => Options.default

/-- The report of a request, given the contents of its file. -/
def Request.run (request : Request) (contents : Except ReadFailure String) : Report :=
  match load request.file contents request.command.options with
  | .error report => report
  | .ok m => match request.command with
    | .solve format _ => reportSolve m format
    | .minSize width height format =>
      reportSize m width height format m.spec.minSize .minSize
    | .maxSize width height format =>
      reportSize m width height format m.spec.maxSize .maxSize
    | .check => reportCheck m request.file

end ElasticLayout.CommandLine
