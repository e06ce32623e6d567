import ElasticLayout.Json.Basic

/-!
# Records in data trees

A record is written as an object or as the sequence of its fields.  An object may have members that
are no fields, whatever they hold, but no field twice.  A choice between names is written as a name,
or as an object whose one member has that name and the absent value.

* `Fields` -- the trees of a record's fields;
* `fields?` -- the fields of a record, given their names and how many a sequence must have;
* `Fields.required?`, `Fields.optional?`, `Fields.orElse?` -- one field;
* `choice?` -- a choice.
-/

namespace ElasticLayout.Json

/-- The fields of a record by position; a missing one has no tree. -/
abbrev Fields := List (Option Json)

/-- The only value of a field in an object; none within if it is missing, and none at all if it is
there twice. -/
def onlyMember? (members : List (String × Json)) (name : String) : Option (Option Json) :=
  match members.filter (·.1 == name) with
  | [] => some none
  | [(_, value)] => some (some value)
  | _ => none

/-- The fields of a record.  A sequence holds at least `least` of them and no other items. -/
def fields? (names : List String) (least : Nat) : Json → Option Fields
  | .object members => do
    let members ← members.mapM fun (name, value) => (decode? name).map (·, value)
    names.mapM (onlyMember? members)
  | .array items =>
    if least ≤ items.length ∧ items.length ≤ names.length then
      some (items.map some ++ List.replicate (names.length - items.length) none)
    else none
  | _ => none

namespace Fields

variable {β : Type}

/-- A field that must be there. -/
def required? (fields : Fields) (position : Nat) (read : Json → Option β) : Option β := do
  read (← (← fields[position]?))

/-- A field that may be missing or absent. -/
def optional? (fields : Fields) (position : Nat) (read : Json → Option β) : Option (Option β) :=
  match fields[position]?.join with
  | none | some .null => some none
  | some tree => (read tree).map some

/-- A field that may be missing, with the value it has then. -/
def orElse? (fields : Fields) (position : Nat) (default : β) (read : Json → Option β) : Option β :=
  match fields[position]?.join with
  | none => some default
  | some tree => read tree

end Fields

/-- A choice between named alternatives. -/
def choice? {β : Type} (ofName? : String → Option β) : Json → Option β
  | .string escaped => do ofName? (← decode? escaped)
  | .object [(name, .null)] => do ofName? (← decode? name)
  | _ => none

/-- A sequence of values. -/
def listOf? {β : Type} (read : Json → Option β) : Json → Option (List β)
  | .array items => items.mapM read
  | _ => none

end ElasticLayout.Json
