import ElasticLayout.Json.Basic

/-!
# Reading data trees

A reader for the strict grammar: one value with blanks around it, no comments, no trailing commas,
no leading zeros, and no control characters within a text.

* `skipBlanks`, `number?`, `quoted?` -- the tokens; each gives what is left of the input;
* `value?`, `items?`, `members?` -- values, by recursion on a bound for the number of steps, of
  which no input needs more than it has characters;
* `parse?` -- the tree of a whole text.
-/

namespace ElasticLayout.Json.Reader

/-- Blanks between tokens. -/
def isBlank (c : Char) : Bool := c = ' ' || c = '\t' || c = '\n' || c = '\x0d'

/-- The input from its first character that is not blank. -/
def skipBlanks (input : List Char) : List Char := input.dropWhile isBlank

/-- One digit or more, and the rest. -/
def digits? (input : List Char) : Option (List Char × List Char) :=
  match input.span Char.isDigit with
  | ([], _) => none
  | split => some split

/-- The whole part of a number: a zero alone, or digits that begin with none. -/
def whole? (input : List Char) : Option (List Char × List Char) := do
  let (digits, rest) ← digits? input
  if digits.length > 1 && digits.headD '0' = '0' then none else some (digits, rest)

/-- The fractional part of a number, which may be absent. -/
def fraction? (input : List Char) : Option (List Char × List Char) :=
  match input with
  | '.' :: rest => (digits? rest).map fun (digits, rest) => ('.' :: digits, rest)
  | _ => some ([], input)

/-- The exponent of a number, which may be absent. -/
def exponent? (input : List Char) : Option (List Char × List Char) :=
  match input with
  | c :: rest =>
    if c = 'e' || c = 'E' then
      match rest with
      | s :: rest' =>
        if s = '+' || s = '-' then
          (digits? rest').map fun (digits, rest) => (c :: s :: digits, rest)
        else (digits? rest).map fun (digits, rest) => (c :: digits, rest)
      | [] => none
    else some ([], input)
  | [] => some ([], [])

/-- The literal of a number, and the rest. -/
def number? (input : List Char) : Option (Json × List Char) := do
  let (sign, input) := match input with
    | '-' :: rest => (['-'], rest)
    | _ => ([], input)
  let (whole, input) ← whole? input
  let (fraction, input) ← fraction? input
  let (exponent, input) ← exponent? input
  return (.number (String.ofList (sign ++ whole ++ fraction ++ exponent)), input)

/-- The escaped form of a text up to its closing quotation mark, the part read so far being given
in reverse.  Four digits follow the escape of a unit; which units they are is not judged. -/
def quoted? (read : List Char) : List Char → Option (String × List Char)
  | [] => none
  | '"' :: rest => some (String.ofList read.reverse, rest)
  | '\\' :: 'u' :: a :: b :: c :: d :: rest =>
    if [a, b, c, d].all (hexValue? · |>.isSome) then
      quoted? (d :: c :: b :: a :: 'u' :: '\\' :: read) rest
    else none
  | '\\' :: c :: rest =>
    if (shortEscape? c).isSome then quoted? (c :: '\\' :: read) rest else none
  | c :: rest => if c.toNat < 0x20 || c = '\\' then none else quoted? (c :: read) rest

mutual

/-- A value at the beginning of the input, and the rest. -/
def value? : Nat → List Char → Option (Json × List Char)
  | 0, _ => none
  | steps + 1, input =>
    match skipBlanks input with
    | 'n' :: 'u' :: 'l' :: 'l' :: rest => some (.null, rest)
    | 't' :: 'r' :: 'u' :: 'e' :: rest => some (.bool true, rest)
    | 'f' :: 'a' :: 'l' :: 's' :: 'e' :: rest => some (.bool false, rest)
    | '"' :: rest => (quoted? [] rest).map fun (text, rest) => (.string text, rest)
    | '[' :: rest =>
      match skipBlanks rest with
      | ']' :: rest => some (.array [], rest)
      | rest => (items? steps rest).map fun (items, rest) => (.array items, rest)
    | '\x7b' :: rest =>
      match skipBlanks rest with
      | '\x7d' :: rest => some (.object [], rest)
      | rest => (members? steps rest).map fun (members, rest) => (.object members, rest)
    | input => number? input

/-- The items of a sequence up to its closing bracket. -/
def items? : Nat → List Char → Option (List Json × List Char)
  | 0, _ => none
  | steps + 1, input =>
    match value? steps input with
    | none => none
    | some (item, rest) =>
      match skipBlanks rest with
      | ',' :: rest => (items? steps rest).map fun (items, rest) => (item :: items, rest)
      | ']' :: rest => some ([item], rest)
      | _ => none

/-- The members of an object up to its closing bracket. -/
def members? : Nat → List Char → Option (List (String × Json) × List Char)
  | 0, _ => none
  | steps + 1, input =>
    match skipBlanks input with
    | '"' :: rest =>
      match quoted? [] rest with
      | none => none
      | some (name, rest) =>
        match skipBlanks rest with
        | ':' :: rest =>
          match value? steps rest with
          | none => none
          | some (value, rest) =>
            match skipBlanks rest with
            | ',' :: rest =>
              (members? steps rest).map fun (members, rest) => ((name, value) :: members, rest)
            | '\x7d' :: rest => some ([(name, value)], rest)
            | _ => none
        | _ => none
    | _ => none

end

/-- The tree of a text; none unless the whole text is one value. -/
def parse? (text : String) : Option Json :=
  let input := text.toList
  match value? (2 * input.length + 1) input with
  | some (tree, rest) => if (skipBlanks rest).isEmpty then some tree else none
  | none => none

end ElasticLayout.Json.Reader
