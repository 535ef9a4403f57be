import FieldQuery.Fields
import FieldQuery.Number.Decimal

/-!
JSON documents with ordered objects. Numbers keep integers and binary64
numbers apart, and both are what a document can hold: integers of 64 bits with
or without sign, and finite numbers.
-/

namespace FieldQuery

structure JsonInt where
  val : Int
  least : -Word.signedEnd ≤ val
  bound : val < Word.unsignedEnd
deriving DecidableEq

structure FiniteDouble where
  val : Double
  finite : val.isFinite = true
deriving DecidableEq

inductive JsonNumber where
  | int (n : JsonInt)
  | float (x : FiniteDouble)
deriving DecidableEq

inductive Json where
  | null
  | bool (b : Bool)
  | number (n : JsonNumber)
  | string (s : String)
  | array (items : List Json)
  | object (members : List (String × Json))
deriving Inhabited

def JsonInt.ofInt? (n : Int) : Option JsonInt :=
  if h : -Word.signedEnd ≤ n ∧ n < Word.unsignedEnd then some ⟨n, h.1, h.2⟩ else none

def JsonInt.ofInt64 (n : Int64) : JsonInt :=
  ⟨n.toInt, n.le_toInt, Int.lt_trans n.toInt_lt (by decide)⟩

def FiniteDouble.ofDouble? (x : Double) : Option FiniteDouble :=
  if h : x.isFinite = true then some ⟨x, h⟩ else none

namespace JsonNumber

def ofInt? (n : Int) : Option JsonNumber := (JsonInt.ofInt? n).map .int

def ofDouble? (x : Double) : Option JsonNumber := (FiniteDouble.ofDouble? x).map .float

def toDouble : JsonNumber → Double
  | .int n => .ofInt n.val
  | .float x => x.val

/-- Numbers are the same if they are equal and of one kind. -/
def same : JsonNumber → JsonNumber → Bool
  | .int m, .int n => m.val == n.val
  | .float x, .float y => x.val.same y.val
  | _, _ => false

end JsonNumber

namespace Json

/-- A binary64 number, or `null` for what a document cannot hold. -/
def ofDouble (x : Double) : Json := ((JsonNumber.ofDouble? x).map number).getD .null

def ofInt64 (n : Int64) : Json := .number (.int (.ofInt64 n))

def asString? : Json → Option String
  | .string s => some s
  | _ => none

def asArray? : Json → Option (List Json)
  | .array items => some items
  | _ => none

/-- The member under a key, if the document is an object that has it. -/
def member? : Json → String → Option Json
  | .object members, key => Fields.get? members key
  | _, _ => none

mutual

/-- Equality of documents, in which the order of members does not matter. -/
def same : Json → Json → Bool
  | .null, .null => true
  | .bool a, .bool b => a == b
  | .number m, .number n => m.same n
  | .string s, .string t => s == t
  | .array items, .array others => sameItems items others
  | .object members, .object others =>
      members.length == others.length && sameMembers members others
  | _, _ => false

def sameItems : List Json → List Json → Bool
  | [], [] => true
  | v :: rest, w :: others => same v w && sameItems rest others
  | _, _ => false

def sameMembers : List (String × Json) → List (String × Json) → Bool
  | [], _ => true
  | (key, v) :: rest, others =>
      (match Fields.get? others key with
        | some w => same v w
        | none => false) && sameMembers rest others

end

end Json

end FieldQuery
