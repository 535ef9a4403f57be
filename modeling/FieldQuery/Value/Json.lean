import FieldQuery.Value.Basic

/-!
Values and JSON. Objects have no JSON form: nothing about them leaves except
through a selection.
-/

namespace FieldQuery.Value

variable {Obj : Type}

mutual

/-- Plain data as JSON. Objects, infinities and NaN become `null`. -/
def toJson : Value Obj → Json
  | .null | .object _ => .null
  | .bool b => .bool b
  | .int n => .ofInt64 n
  | .float x => .ofDouble x
  | .string s => .string s
  | .list items => .array (itemsToJson items)
  | .map fields => .object (fieldsToJson fields)

def itemsToJson : List (Value Obj) → List Json
  | [] => []
  | v :: rest => toJson v :: itemsToJson rest

def fieldsToJson : List (String × Value Obj) → List (String × Json)
  | [] => []
  | (name, v) :: rest => (name, toJson v) :: fieldsToJson rest

end

/-- Rendering of a value that no selection was asked of. Objects, and lists
with a list or an object among their items, are left out. -/
def toLeaf : Value Obj → Json
  | .list items => if items.all isSimple then .array (itemsToJson items) else .null
  | v => v.toJson

def ofJsonNumber : JsonNumber → Value Obj
  | .int n => if n.val < Word.signedEnd then .int (Int64.ofInt n.val) else .float (.ofInt n.val)
  | .float x => .float x.val

mutual

/-- The value of a document. Integers beyond the signed range become numbers. -/
def ofJson : Json → Value Obj
  | .null => .null
  | .bool b => .bool b
  | .number n => ofJsonNumber n
  | .string s => .string s
  | .array items => .list (ofItems items)
  | .object members => .map (ofMembers members)

def ofItems : List Json → List (Value Obj)
  | [] => []
  | v :: rest => ofJson v :: ofItems rest

def ofMembers : List (String × Json) → List (String × Value Obj)
  | [] => []
  | (key, v) :: rest => (key, ofJson v) :: ofMembers rest

end

end FieldQuery.Value
