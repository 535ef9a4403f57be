import FieldQuery.Json.Basic

/-!
Deep merge of JSON objects. Objects on both sides are merged member by member;
a policy decides about arrays and nulls, and anything else is replaced.
-/

namespace FieldQuery

/-- `unionArrays` joins arrays on both sides without equal items, instead of
replacing the first; `keepOnNull` lets an incoming `null` change nothing. -/
structure MergePolicy where
  unionArrays : Bool
  keepOnNull : Bool
deriving DecidableEq

namespace MergePolicy

def union : MergePolicy := ⟨true, true⟩

/-- Between sibling calls sequences are replaced. -/
def replaceArrays : MergePolicy := ⟨false, true⟩

def default : MergePolicy := union

end MergePolicy

namespace Json

/-- Appends the items that are not there yet. -/
def unionItems (present : List Json) : List Json → List Json
  | [] => present
  | v :: rest => unionItems (if present.any (·.same v) then present else present ++ [v]) rest

mutual

/-- Merges a second document into a first. -/
def merge (policy : MergePolicy) (existing : Json) : Json → Json
  | .object others =>
      match existing with
      | .object members => .object (mergeMembers policy members others)
      | _ => .object others
  | .array others =>
      match existing with
      | .array items =>
          if policy.unionArrays then .array (unionItems [] (items ++ others)) else .array others
      | _ => .array others
  | .null => if policy.keepOnNull then existing else .null
  | v => v

/-- Merges the members of one object into another, in order. -/
def mergeMembers (policy : MergePolicy) (members : List (String × Json)) :
    List (String × Json) → List (String × Json)
  | [] => members
  | (key, v) :: rest =>
      let merged := match Fields.get? members key with
        | some existing => merge policy existing v
        | none => v
      mergeMembers policy (Fields.put members key merged) rest

end

end Json

/-- Stores a value under a key, merging it into an object that is already
there and replacing anything else. -/
def mergeEntry (policy : MergePolicy) (fields : Fields Json) (key : String) (v : Json) :
    Fields Json :=
  match Fields.get? fields key with
  | some (.object members) => Fields.put fields key (Json.merge policy (.object members) v)
  | _ => Fields.put fields key v

end FieldQuery
