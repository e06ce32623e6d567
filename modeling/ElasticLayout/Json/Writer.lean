import ElasticLayout.Decimal.Notation
import ElasticLayout.Json.Basic

/-!
# Writing data trees

* `ofFloat` -- a float as a tree, absent if it is not finite;
* `compact` -- a tree on one line without blanks;
* `pretty` -- a tree with one item on a line, indented by two blanks a level.
-/

namespace ElasticLayout.Json

/-- A float as a number, or as the absent value if it is not finite. -/
def ofFloat (x : Float) : Json :=
  if x.isFinite then .number (Decimal.interchange.render x) else .null

/-- A natural number as a tree. -/
def ofNat (n : Nat) : Json := .number (toString n)

/-- A text that may be absent. -/
def ofText? : Option String → Json
  | some text => ofText text
  | none => .null

/-- An object with plain member names. -/
def ofMembers (members : List (String × Json)) : Json :=
  .object (members.map fun (name, value) => (encode name, value))

/-- A text in quotation marks. -/
def quote (escaped : String) : String := "\"" ++ escaped ++ "\""

mutual

/-- A tree on one line. -/
def compact : Json → String
  | .null => "null"
  | .bool value => if value then "true" else "false"
  | .number literal => literal
  | .string escaped => quote escaped
  | .array items => "[" ++ ",".intercalate (compactItems items) ++ "]"
  | .object members => "\x7b" ++ ",".intercalate (compactMembers members) ++ "\x7d"

/-- The items of a sequence, each on one line. -/
def compactItems : List Json → List String
  | [] => []
  | item :: items => compact item :: compactItems items

/-- The members of an object, each on one line. -/
def compactMembers : List (String × Json) → List String
  | [] => []
  | (name, value) :: members => (quote name ++ ":" ++ compact value) :: compactMembers members

end

/-- A line break and the blanks of a level of nesting. -/
def newLine (level : Nat) : String := "\n".pushn ' ' (2 * level)

/-- Parts in brackets, each on lines of its own; without parts the brackets stay together. -/
def bracketed (level : Nat) (opening closing : String) (parts : List String) : String :=
  if parts.isEmpty then opening ++ closing
  else opening ++ newLine (level + 1) ++ ("," ++ newLine (level + 1)).intercalate parts
    ++ newLine level ++ closing

mutual

/-- A tree over several lines, at a level of nesting. -/
def prettyAt (level : Nat) : Json → String
  | .null => "null"
  | .bool value => if value then "true" else "false"
  | .number literal => literal
  | .string escaped => quote escaped
  | .array items => bracketed level "[" "]" (prettyItems (level + 1) items)
  | .object members => bracketed level "\x7b" "\x7d" (prettyMembers (level + 1) members)

/-- The items of a sequence, at a level of nesting. -/
def prettyItems (level : Nat) : List Json → List String
  | [] => []
  | item :: items => prettyAt level item :: prettyItems level items

/-- The members of an object, at a level of nesting. -/
def prettyMembers (level : Nat) : List (String × Json) → List String
  | [] => []
  | (name, value) :: members =>
    (quote name ++ ": " ++ prettyAt level value) :: prettyMembers level members

end

/-- A tree over several lines. -/
def pretty (tree : Json) : String := prettyAt 0 tree

end ElasticLayout.Json
