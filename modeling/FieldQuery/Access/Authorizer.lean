import FieldQuery.Access.Action
import FieldQuery.Value.Basic

/-!
Authorizers decide whether an action on a subject is allowed. Nothing is
exposed or changed without asking one.
-/

namespace FieldQuery

/-- What an action is checked against: a whole type, an object, or a value
that is no object. -/
inductive Subject (Obj : Type) where
  | type (name : String)
  | object (o : Obj)
  | value (v : Value Obj)

def Subject.typeName {Obj : Type} (domain : Domain Obj) : Subject Obj → String
  | .type name => name
  | .object o => domain.typeName o
  | .value v => v.kind domain

/-- Subject that stands for a record: the object, or its type if the record is
plain data. -/
def Subject.ofRecord {Obj : Type} (typeName : String) : Value Obj → Subject Obj
  | .object o => .object o
  | _ => .type typeName

abbrev Authorizer (Obj : Type) := Action → Subject Obj → Bool

def Authorizer.allowAll {Obj : Type} : Authorizer Obj := fun _ _ => true

end FieldQuery
