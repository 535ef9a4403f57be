import FieldQuery.Json.Raw

/-!
Reading the parts of a raw document as what they are expected to be. A reader
of arrays or objects is told for how many levels of nesting there is room.
-/

namespace FieldQuery.RawJson

def asString? : RawJson → Option String
  | .string s => s
  | _ => none

/-- Name of one of several choices: a string, or the key of an object that
holds `null` under it and nothing else. -/
def asChoice? : Nat → RawJson → Option String
  | _, .string name => name
  | _ + 1, .object [(name, .null)] => name
  | _, _ => none

/-- `null` stands for what is absent. -/
def asOptional? {α : Type} (read? : RawJson → Option α) : RawJson → Option (Option α)
  | .null => some none
  | v => (read? v).map some

def asList? {α : Type} (read? : Nat → RawJson → Option α) : Nat → RawJson → Option (List α)
  | room + 1, .array items => items.mapM (read? room)
  | _, _ => none

/-- Values of all members under a key, in order; `none` if a key has no value. -/
def valuesAt? (key : String) : List (Option String × RawJson) → Option (List RawJson)
  | [] => some []
  | (none, _) :: _ => none
  | (some name, value) :: rest =>
      (valuesAt? key rest).map fun found => if name = key then value :: found else found

end FieldQuery.RawJson
