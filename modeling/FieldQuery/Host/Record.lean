import FieldQuery.Json.Basic
import FieldQuery.Value.Basic

/-!
Records: domain objects given as data. A record answers from its fields, and
may have dynamic fields that answer with their arguments.
-/

namespace FieldQuery.Host

/-- A record with an identity of its own. Prefetching gives a copy that is
marked with the hints, or another value. -/
structure Record where
  handle : Nat
  typeName : String
  id : Option (Value Record)
  prefetch : Option (Option (Value Record))
  fields : List (String × Value Record)
  dynamic : List String

namespace Record

def field (r : Record) (name : String) (args : List (Value Record)) : Option (Value Record) :=
  if r.dynamic.contains name then some (.list args) else Fields.get? r.fields name

/-- A copy that shows with which hints it was loaded. -/
def marked (r : Record) (hints : Hints) : Record :=
  { r with fields := Fields.put r.fields "loaded" (.string hints.text) }

def prefetched (r : Record) (hints : Hints) : Option (Value Record) :=
  match r.prefetch with
  | none => none
  | some none => some (.object (r.marked hints))
  | some (some v) => some v

/-- Each type of records has a name of its own. -/
def domain : Domain Record :=
  { typeId := typeName
    typeName := typeName
    same := fun r s => r.handle == s.handle
    field := field
    id := id
    prefetch := prefetched }

end Record

end FieldQuery.Host
