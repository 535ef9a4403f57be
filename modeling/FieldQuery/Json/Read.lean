import FieldQuery.Json.Raw

/-!
Reading JSON documents: a raw document in which every numeral and string has a
value, and whose arrays and objects nest at most 127 deep.
-/

namespace FieldQuery.RawJson

/-- Arrays and objects that may nest in one another. -/
def nestingLimit : Nat := 127

mutual

/-- Value of a raw document, with room for some levels of nesting. A repeated
key keeps its first place and its last value. -/
def toJson? : Nat → RawJson → Option Json
  | _, .null => some .null
  | _, .bool b => some (.bool b)
  | _, .number value => value.map .number
  | _, .string value => value.map .string
  | room + 1, .array items => (itemsToJson? room items).map .array
  | room + 1, .object members =>
      (membersToJson? room members).map fun members => .object (Fields.ofList members)
  | 0, .array _ | 0, .object _ => none

def itemsToJson? : Nat → List RawJson → Option (List Json)
  | _, [] => some []
  | room, v :: rest =>
      match toJson? room v, itemsToJson? room rest with
      | some v, some rest => some (v :: rest)
      | _, _ => none

def membersToJson? : Nat → List (Option String × RawJson) → Option (List (String × Json))
  | _, [] => some []
  | room, (key, v) :: rest =>
      match key, toJson? room v, membersToJson? room rest with
      | some key, some v, some rest => some ((key, v) :: rest)
      | _, _, _ => none

end

end FieldQuery.RawJson

namespace FieldQuery.Json

def parse? (text : String) : Option Json :=
  (RawJson.parse? text.toList).bind (RawJson.toJson? RawJson.nestingLimit)

end FieldQuery.Json
