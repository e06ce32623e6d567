/-!
# Arguments

The words of a command line.  Options may stand anywhere behind the name of the command; the option
for more messages may also stand before it.  Behind `--` every word is an argument.

* `Format`, `Command`, `Request` -- what a command line can ask for;
* `Scan` -- what has been read of it so far, and `Scan.step` -- one word more;
* `Request.parse?` -- the request of all words; none if they make no sense.
-/

namespace ElasticLayout.CommandLine

/-- How an answer is written. -/
inductive Format where
  /-- For a human reader. -/
  | pretty
  /-- For a program. -/
  | json
deriving DecidableEq

/-- The format of a name. -/
def Format.ofName? : String → Option Format
  | "pretty" => some .pretty
  | "json" => some .json
  | _ => none

/-- What to do with a model file. -/
inductive Command where
  /-- Solve it. -/
  | solve (format : Format) (maxIterations : Nat)
  /-- Ask for the smallest size of two named variables. -/
  | minSize (width height : String) (format : Format)
  /-- Ask for the largest size of two named variables. -/
  | maxSize (width height : String) (format : Format)
  /-- Look for errors. -/
  | check

/-- A command for a file. -/
structure Request where
  /-- How often more messages were asked for. -/
  verbosity : Nat
  /-- The file. -/
  file : String
  /-- What to do with it. -/
  command : Command

/-! ### Options -/

/-- The names of the commands. -/
inductive Verb where
  /-- Solve. -/
  | solve
  /-- Smallest size. -/
  | minSize
  /-- Largest size. -/
  | maxSize
  /-- Look for errors. -/
  | check
deriving DecidableEq

/-- The command of a name. -/
def Verb.ofName? : String → Option Verb
  | "solve" => some .solve
  | "min-size" => some .minSize
  | "max-size" => some .maxSize
  | "check" => some .check
  | _ => none

/-- An option that takes a value. -/
inductive Setting where
  /-- How the answer is written. -/
  | format
  /-- The limit of iterations. -/
  | maxIterations
deriving DecidableEq

/-- The settings of a command. -/
def Verb.settings : Verb → List Setting
  | solve => [.format, .maxIterations]
  | minSize | maxSize => [.format]
  | check => []

/-- The setting of a long option. -/
def Setting.ofName? : String → Option Setting
  | "format" => some .format
  | "max-iterations" => some .maxIterations
  | _ => none

/-- A count below `2 ^ 64`, with a plus sign or without. -/
def count? (word : String) : Option Nat :=
  let digits := match word.toList with
    | '+' :: digits => digits
    | digits => digits
  if digits.isEmpty || !digits.all Char.isDigit then none
  else
    let n := digits.foldl (fun n c => n * 10 + (c.toNat - '0'.toNat)) 0
    if n < Nat.pow 2 64 then some n else none

/-- The word is an option, or ends the options; a lone hyphen is neither. -/
def looksLikeOption (word : String) : Bool := word.startsWith "-" && word != "-"

/-! ### Scanning -/

/-- What has been read of a command line. -/
structure Scan where
  /-- How often more messages were asked for. -/
  verbosity : Nat := 0
  /-- The command. -/
  verb : Option Verb := none
  /-- The format, if it was set. -/
  format : Option Format := none
  /-- The limit of iterations, if it was set. -/
  maxIterations : Option Nat := none
  /-- The other arguments. -/
  arguments : List String := []
  /-- A setting whose value is the next word. -/
  pending : Option Setting := none
  /-- The options have ended. -/
  isLiteral : Bool := false

namespace Scan

/-- Give a setting its value, which it may get only once. -/
def set (s : Scan) (setting : Setting) (value : String) : Option Scan :=
  match setting with
  | .format =>
    if s.format.isSome then none
    else (Format.ofName? value).map fun f => { s with format := some f, pending := none }
  | .maxIterations =>
    if s.maxIterations.isSome then none
    else (count? value).map fun n => { s with maxIterations := some n, pending := none }

/-- The setting belongs to the command. -/
def allows (s : Scan) (setting : Setting) : Bool :=
  s.verb.any fun verb => verb.settings.contains setting

/-- Wait for the value of a setting. -/
def await (s : Scan) (setting : Setting) : Scan := { s with pending := some setting }

/-- Read the letters behind a single hyphen.  Letters behind the first one that takes a value are
its value, with an equals sign before them or without. -/
def letters (s : Scan) : List Char → Option Scan
  | [] => some s
  | 'v' :: rest => { s with verbosity := s.verbosity + 1 }.letters rest
  | 'f' :: rest =>
    if s.allows .format then
      match rest with
      | [] => some (s.await .format)
      | '=' :: value => s.set .format (String.ofList value)
      | value => s.set .format (String.ofList value)
    else none
  | _ => none

/-- Read a long option, without its two hyphens. -/
def long (s : Scan) (word : List Char) : Option Scan :=
  let name := String.ofList (word.takeWhile (· != '='))
  if name = "verbose" then
    if word.contains '=' then none else some { s with verbosity := s.verbosity + 1 }
  else do
    let setting ← Setting.ofName? name
    if !s.allows setting then none
    else match word.dropWhile (· != '=') with
      | _ :: value => s.set setting (String.ofList value)
      | [] => some (s.await setting)

/-- Read an argument: the name of the command first, then the arguments of the command. -/
def argument (s : Scan) (word : String) : Option Scan :=
  if s.verb.isSome then some { s with arguments := s.arguments ++ [word] }
  else if s.isLiteral then none
  else (Verb.ofName? word).map fun verb => { s with verb := some verb }

/-- Read one word. -/
def step (s : Scan) (word : String) : Option Scan :=
  if s.isLiteral then s.argument word
  else match s.pending with
    | some setting => if looksLikeOption word then none else s.set setting word
    | none =>
      if !looksLikeOption word then s.argument word
      else match word.toList with
        | '-' :: '-' :: [] => some { s with isLiteral := true }
        | '-' :: '-' :: name => s.long name
        | '-' :: letters => s.letters letters
        | _ => none

/-- The request of a finished scan.  A file needs a name, and a variable may do with an empty
one. -/
def request? (s : Scan) : Option Request :=
  let format := s.format.getD .pretty
  let ofFile (file : String) (command : Command) : Option Request :=
    if file.isEmpty then none else some ⟨s.verbosity, file, command⟩
  if s.pending.isSome then none
  else match s.verb, s.arguments with
    | some .solve, [file] => ofFile file (.solve format (s.maxIterations.getD 10000))
    | some .minSize, [file, width, height] => ofFile file (.minSize width height format)
    | some .maxSize, [file, width, height] => ofFile file (.maxSize width height format)
    | some .check, [file] => ofFile file .check
    | _, _ => none

end Scan

/-- The request of a command line. -/
def Request.parse? (words : List String) : Option Request := do
  (← words.foldlM Scan.step {}).request?

end ElasticLayout.CommandLine
