/-!
# Data trees

Values of a text format for structured data, as they are written: numbers keep their literal,
texts keep their escapes, and objects keep the order and the repetitions of their members.  What a
literal means is decided by its reader, so that a value nobody asks for is never judged.

* `Json` -- the tree;
* `encode`, `decode?` -- between a text and its escaped form;
* `ofText`, `text?` -- the same on trees;
* `float?` -- the finite number of a literal.
-/

namespace ElasticLayout

/-- A value of the data format. -/
inductive Json where
  /-- The absent value. -/
  | null
  /-- A truth value. -/
  | bool (value : Bool)
  /-- A number, by its literal. -/
  | number (literal : String)
  /-- A text, by its escaped form without the quotation marks. -/
  | string (escaped : String)
  /-- A sequence. -/
  | array (items : List Json)
  /-- Named members; a name is in escaped form. -/
  | object (members : List (String × Json))
deriving Inhabited

namespace Json

/-! ### Texts -/

/-- A digit of base sixteen, in lower case. -/
def hexDigit (n : Nat) : Char := (Nat.toDigits 16 n).headD '0'

/-- The escaped form of a character. -/
def encodeChar (c : Char) : List Char :=
  if c = '"' then ['\\', '"']
  else if c = '\\' then ['\\', '\\']
  else if c = '\x08' then ['\\', 'b']
  else if c = '\x0c' then ['\\', 'f']
  else if c = '\n' then ['\\', 'n']
  else if c = '\x0d' then ['\\', 'r']
  else if c = '\t' then ['\\', 't']
  else if c.toNat < 0x20 then
    ['\\', 'u', '0', '0', hexDigit (c.toNat / 16), hexDigit (c.toNat % 16)]
  else [c]

/-- The escaped form of a text. -/
def encode (text : String) : String := String.ofList (text.toList.flatMap encodeChar)

/-- The value of a digit of base sixteen, in either case. -/
def hexValue? (c : Char) : Option Nat :=
  if '0' ≤ c ∧ c ≤ '9' then some (c.toNat - '0'.toNat)
  else if 'a' ≤ c ∧ c ≤ 'f' then some (c.toNat - 'a'.toNat + 10)
  else if 'A' ≤ c ∧ c ≤ 'F' then some (c.toNat - 'A'.toNat + 10)
  else none

/-- The value of four digits of base sixteen. -/
def hexQuad? (a b c d : Char) : Option Nat := do
  return (((← hexValue? a) * 16 + (← hexValue? b)) * 16 + (← hexValue? c)) * 16 + (← hexValue? d)

/-- The character of a one-letter escape. -/
def shortEscape? (c : Char) : Option Char :=
  match c with
  | '"' => some '"'
  | '\\' => some '\\'
  | '/' => some '/'
  | 'b' => some '\x08'
  | 'f' => some '\x0c'
  | 'n' => some '\n'
  | 'r' => some '\x0d'
  | 't' => some '\t'
  | _ => none

/-- A unit of sixteen bits that is the first half of a pair. -/
def isHighHalf (unit : Nat) : Bool := 0xd800 ≤ unit && unit < 0xdc00

/-- A unit of sixteen bits that is the second half of a pair. -/
def isLowHalf (unit : Nat) : Bool := 0xdc00 ≤ unit && unit < 0xe000

/-- Read an escaped form, the characters read so far being given in reverse.  Half of a pair
without its other half stands for no text. -/
def decodeFrom (read : List Char) : List Char → Option (List Char)
  | [] => some read.reverse
  | '\\' :: 'u' :: a :: b :: c :: d :: '\\' :: 'u' :: e :: f :: g :: h :: rest => do
    let unit ← hexQuad? a b c d
    if isHighHalf unit then
      let low ← hexQuad? e f g h
      if isLowHalf low then
        decodeFrom
          (Char.ofNat (0x10000 + (unit - 0xd800) * 0x400 + (low - 0xdc00)) :: read) rest
      else none
    else if isLowHalf unit then none
    else decodeFrom (Char.ofNat unit :: read) ('\\' :: 'u' :: e :: f :: g :: h :: rest)
  | '\\' :: 'u' :: a :: b :: c :: d :: rest => do
    let unit ← hexQuad? a b c d
    if isHighHalf unit || isLowHalf unit then none
    else decodeFrom (Char.ofNat unit :: read) rest
  | '\\' :: c :: rest => do decodeFrom ((← shortEscape? c) :: read) rest
  | c :: rest => if c = '\\' then none else decodeFrom (c :: read) rest

/-- The text of an escaped form. -/
def decode? (escaped : String) : Option String :=
  (decodeFrom [] escaped.toList).map String.ofList

/-- A text as a tree. -/
def ofText (text : String) : Json := .string (encode text)

/-- The text that a tree stands for. -/
def text? : Json → Option String
  | .string escaped => decode? escaped
  | _ => none

/-! ### Numbers -/

/-- The digits of a numeral, read as a natural number. -/
def digitsValue (digits : List Char) : Nat :=
  digits.foldl (fun n c => n * 10 + (c.toNat - '0'.toNat)) 0

/-- The nearest float to `digits * 10 ^ power`; none if that is not finite. -/
def scaled? (digits : Nat) (power : Int) : Option Float :=
  let size : Int := (Nat.toDigits 10 digits).length + power
  if digits = 0 ∨ size < -400 then some 0.0
  else if 400 < size then none
  else
    let x := Float.ofScientific digits (decide (power < 0)) power.natAbs
    if x.isFinite then some x else none

/-- The number of a literal of the data format, rounded to the nearest float. -/
def literalFloat? (literal : String) : Option Float :=
  let negative := literal.startsWith "-"
  let unsigned := if negative then literal.toList.drop 1 else literal.toList
  let mantissa := unsigned.takeWhile fun c => c != 'e' && c != 'E'
  let whole := mantissa.takeWhile (· != '.')
  let fraction := (mantissa.dropWhile (· != '.')).drop 1
  let exponent := (unsigned.dropWhile fun c => c != 'e' && c != 'E').drop 1
  let power : Int := match exponent with
    | '-' :: digits => -(digitsValue digits : Int)
    | '+' :: digits => digitsValue digits
    | digits => digitsValue digits
  (scaled? (digitsValue (whole ++ fraction)) (power - fraction.length)).map fun x =>
    if negative then -x else x

/-- The finite number that a tree stands for. -/
def float? : Json → Option Float
  | .number literal => literalFloat? literal
  | _ => none

/-! ### Structure -/

/-- The value of the first member of that name. -/
def member? (name : String) : Json → Option Json
  | .object members => (members.find? fun m => decode? m.1 == some name).map (·.2)
  | _ => none

/-- The items of a sequence. -/
def items? : Json → Option (List Json)
  | .array items => some items
  | _ => none

end Json

end ElasticLayout
