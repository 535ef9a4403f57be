import FieldQuery.Json.Part
import FieldQuery.Json.Read
import FieldQuery.Json.Text
import FieldQuery.Selection.Hints

/-!
Selections and hints as JSON. What a selection is written as reads back as the
same tree, calls taken as they stand: nothing is merged, and a label equal to
the name is kept.
-/

namespace FieldQuery

namespace Param

def toJson (p : Param) : Json :=
  let (kind, value) := match p with
    | .named name => ("named", Json.string name)
    | .number value => ("number", Json.ofDouble value)
    | .literal text => ("literal", Json.string text)
  .object [("kind", .string kind), ("value", value)]

/-- A parameter of the kind with a name; numbers may be integers or not. -/
def ofParts? : String → RawJson → Option Param
  | "named", .string (some name) => some (.named name)
  | "number", .number (some n) => some (.number n.toDouble)
  | "literal", .string (some text) => some (.literal text)
  | _, _ => none

/-- Reads an object with a kind and a value, or an array of both, with room
for some levels of nesting. Other members are passed over, and the kind in an
array is always a string. -/
def ofRaw? : Nat → RawJson → Option Param
  | _ + 1, .array [.string (some kind), value] => ofParts? kind value
  | room + 1, .object members =>
      match RawJson.valuesAt? "kind" members, RawJson.valuesAt? "value" members with
      | some [kind], some [value] => (kind.asChoice? room).bind fun kind => ofParts? kind value
      | _, _ => none
  | _, _ => none

end Param

namespace Selection

mutual

def callToJson : Call → Json
  | ⟨name, label, params, nested⟩ =>
      let label := match label with
        | some label => [("alias", Json.string label)]
        | none => []
      let params := match params with
        | some params => [("params", Json.array (params.map Param.toJson))]
        | none => []
      let nested := match nested with
        | some calls => [("selection", Json.array (callsToJson calls))]
        | none => []
      .object (("name", .string name) :: label ++ params ++ nested)

def callsToJson : List Call → List Json
  | [] => []
  | c :: rest => callToJson c :: callsToJson rest

end

def toJson (s : Selection) : Json := .array (callsToJson s)

/-- Parts of a call read so far; the inner option of a part that may be absent
is what was read. -/
structure Draft where
  name : Option String
  label : Option (Option String)
  params : Option (Option (List Param))
  nested : Option (Option (List Call))

def Draft.empty : Draft := ⟨none, none, none, none⟩

/-- Only the name is required. -/
def Draft.call? (d : Draft) : Option Call :=
  d.name.map fun name => ⟨name, d.label.getD none, d.params.getD none, d.nested.getD none⟩

/-- Parameters of a call. -/
def paramsOfRaw? (room : Nat) (v : RawJson) : Option (Option (List Param)) :=
  RawJson.asOptional? (RawJson.asList? Param.ofRaw? room) v

mutual

/-- Reads an array of calls, with room for some levels of nesting. -/
def callsOfRaw? : Nat → RawJson → Option (List Call)
  | room + 1, .array items => itemsOfRaw? room items
  | _, _ => none

def itemsOfRaw? : Nat → List RawJson → Option (List Call)
  | _, [] => some []
  | room, v :: rest =>
      match callOfRaw? room v, itemsOfRaw? room rest with
      | some c, some rest => some (c :: rest)
      | _, _ => none

/-- Reads a call: an object, or an array of its fields in order, of which only
the first is required. -/
def callOfRaw? : Nat → RawJson → Option Call
  | room + 1, .object members => (membersOfRaw? room members .empty).bind Draft.call?
  | _ + 1, .array [name] => name.asString?.map Call.ofName
  | _ + 1, .array [name, label] =>
      match name.asString?, RawJson.asOptional? RawJson.asString? label with
      | some name, some label => some ⟨name, label, none, none⟩
      | _, _ => none
  | room + 1, .array [name, label, params] =>
      match name.asString?, RawJson.asOptional? RawJson.asString? label,
          paramsOfRaw? room params with
      | some name, some label, some params => some ⟨name, label, params, none⟩
      | _, _, _ => none
  | room + 1, .array [name, label, params, nested] =>
      match name.asString?, RawJson.asOptional? RawJson.asString? label,
          paramsOfRaw? room params, nestedOfRaw? room nested with
      | some name, some label, some params, some nested => some ⟨name, label, params, nested⟩
      | _, _, _, _ => none
  | _, _ => none

def nestedOfRaw? : Nat → RawJson → Option (Option (List Call))
  | _, .null => some none
  | room, v => (callsOfRaw? room v).map some

/-- Reads the fields of a call; a repeated one is an error, and members of
other names are passed over. -/
def membersOfRaw? : Nat → List (Option String × RawJson) → Draft → Option Draft
  | _, [], d => some d
  | room, (key, v) :: rest, d =>
      match key with
      | some "name" =>
          match d.name, v.asString? with
          | none, some name => membersOfRaw? room rest { d with name := some name }
          | _, _ => none
      | some "alias" =>
          match d.label, RawJson.asOptional? RawJson.asString? v with
          | none, some label => membersOfRaw? room rest { d with label := some label }
          | _, _ => none
      | some "params" =>
          match d.params, paramsOfRaw? room v with
          | none, some params => membersOfRaw? room rest { d with params := some params }
          | _, _ => none
      | some "selection" =>
          match d.nested, nestedOfRaw? room v with
          | none, some nested => membersOfRaw? room rest { d with nested := some nested }
          | _, _ => none
      | some _ => membersOfRaw? room rest d
      | none => none

end

/-- Text under which a selection is kept in a durable store. -/
def encode (s : Selection) : String := s.toJson.text

def decode? (text : String) : Option Selection :=
  (RawJson.parse? text.toList).bind (callsOfRaw? RawJson.nestingLimit)

end Selection

namespace Hints

mutual

def hintToJson : Hint → Json
  | ⟨name, []⟩ => .object [("name", .string name)]
  | ⟨name, h :: rest⟩ =>
      .object [("name", .string name),
        ("nested", .object [("entries", .array (hintToJson h :: hintsToJson rest))])]

def hintsToJson : List Hint → List Json
  | [] => []
  | h :: rest => hintToJson h :: hintsToJson rest

end

def toJson (hints : Hints) : Json := .object [("entries", .array (hintsToJson hints))]

end Hints

end FieldQuery
