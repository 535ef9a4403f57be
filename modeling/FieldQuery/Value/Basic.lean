import FieldQuery.Json.Basic
import FieldQuery.Number.Numeral
import FieldQuery.Selection.Hints
import FieldQuery.Text.Blank

/-!
Values that operations and attribute reads produce: plain data, or objects of
the host's own. An object says nothing about itself unless it is asked through
the domain that it belongs to.
-/

namespace FieldQuery

inductive Value (Obj : Type) where
  | null
  | bool (b : Bool)
  | int (n : Int64)
  | float (x : Double)
  | string (s : String)
  | list (items : List (Value Obj))
  | map (fields : List (String × Value Obj))
  | object (o : Obj)

instance {Obj : Type} : Inhabited (Value Obj) := ⟨.null⟩

/-- Identity of a type of objects. Types of one name can differ in it. -/
abbrev TypeId := String

/-- What the objects of a host answer. A type is known by its identity; its
name stands in policies and messages. `same` tells whether two handles are the
same object; `prefetch` is the object with hinted relations loaded. Fields and
loading depend on nothing but the object: no state is read or changed. -/
structure Domain (Obj : Type) where
  typeId : Obj → TypeId
  typeName : Obj → String
  same : Obj → Obj → Bool
  field : Obj → String → List (Value Obj) → Option (Value Obj)
  id : Obj → Option (Value Obj)
  prefetch : Obj → Hints → Option (Value Obj)

namespace Value

variable {Obj : Type}

def isNull : Value Obj → Bool
  | .null => true
  | _ => false

/-- Neither a list nor an object. -/
def isSimple : Value Obj → Bool
  | .list _ | .object _ => false
  | _ => true

def kind (domain : Domain Obj) : Value Obj → String
  | .null => "null"
  | .bool _ => "bool"
  | .int _ => "int"
  | .float _ => "float"
  | .string _ => "string"
  | .list _ => "list"
  | .map _ => "map"
  | .object o => domain.typeName o

def asString? : Value Obj → Option String
  | .string s => some s
  | _ => none

def asBool? : Value Obj → Option Bool
  | .bool b => some b
  | _ => none

/-- The integer that a value stands for: an integer, an integral number in
range, or a text that reads as one. -/
def asInt64? : Value Obj → Option Int64
  | .int n => some n
  | .float x => x.toInt64?
  | .string s => (Numeral.int? (Text.trim s.toList)).bind Word.int64?
  | _ => none

def asDouble? : Value Obj → Option Double
  | .int n => some (.ofInt n.toInt)
  | .float x => some x
  | _ => none

def asMap? : Value Obj → Option (Fields (Value Obj))
  | .map fields => some fields
  | _ => none

def asList? : Value Obj → Option (List (Value Obj))
  | .list items => some items
  | _ => none

def asObject? : Value Obj → Option Obj
  | .object o => some o
  | _ => none

/-- Plain member access: the field of a map or of an object. -/
def member? (domain : Domain Obj) (name : String) (args : List (Value Obj)) :
    Value Obj → Option (Value Obj)
  | .map fields => Fields.get? fields name
  | .object o => domain.field o name args
  | _ => none

/-- An unsigned integer; beyond the signed range it becomes a number. -/
def ofNat (n : Nat) : Value Obj :=
  if n < Word.signedEnd then .int (Int64.ofNat n) else .float (.ofNat n)

mutual

/-- Equality of values: numbers by numeric equality within their kind, maps
without regard to order, objects by identity. -/
def same (domain : Domain Obj) : Value Obj → Value Obj → Bool
  | .null, .null => true
  | .bool a, .bool b => a == b
  | .int m, .int n => m == n
  | .float x, .float y => x.same y
  | .string s, .string t => s == t
  | .list items, .list others => sameItems domain items others
  | .map fields, .map others =>
      fields.length == others.length && sameFields domain fields others
  | .object o, .object p => domain.same o p
  | _, _ => false

def sameItems (domain : Domain Obj) : List (Value Obj) → List (Value Obj) → Bool
  | [], [] => true
  | v :: rest, w :: others => same domain v w && sameItems domain rest others
  | _, _ => false

def sameFields (domain : Domain Obj) :
    List (String × Value Obj) → List (String × Value Obj) → Bool
  | [], _ => true
  | (name, v) :: rest, others =>
      (match Fields.get? others name with
        | some w => same domain v w
        | none => false) && sameFields domain rest others

end

end Value

end FieldQuery
