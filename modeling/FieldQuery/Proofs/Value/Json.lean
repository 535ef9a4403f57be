import FieldQuery.Proofs.Number.Nearest
import FieldQuery.Value.Json

/-!
Documents and values, back and forth. A document comes back from its value as
it was, but for the integers beyond the signed words, and a value comes back
from its document unless there are objects, infinities or NaN in it.
-/

namespace FieldQuery

/-! Documents with other numbers in them. -/

namespace Json

mutual

/-- The document with every number replaced. -/
def mapNumbers (f : JsonNumber → JsonNumber) : Json → Json
  | .null => .null
  | .bool b => .bool b
  | .number n => .number (f n)
  | .string s => .string s
  | .array items => .array (mapItems f items)
  | .object members => .object (mapMembers f members)

def mapItems (f : JsonNumber → JsonNumber) : List Json → List Json
  | [] => []
  | v :: rest => mapNumbers f v :: mapItems f rest

def mapMembers (f : JsonNumber → JsonNumber) : List (String × Json) → List (String × Json)
  | [] => []
  | (key, v) :: rest => (key, mapNumbers f v) :: mapMembers f rest

end

theorem ofDouble_of_finite {x : Double} (h : x.isFinite = true) :
    ofDouble x = .number (.float ⟨x, h⟩) := by
  simp [ofDouble, JsonNumber.ofDouble?, FiniteDouble.ofDouble?, h]

end Json

/-- Integers beyond the signed words are replaced by the numbers nearest to
them, and all other numbers are kept. -/
structure JsonNumber.Narrows (f : JsonNumber → JsonNumber) : Prop where
  int {n : JsonInt} : n.val < Word.signedEnd → f (.int n) = .int n
  nearest {n : JsonInt} : Word.signedEnd ≤ n.val →
    ∃ x, f (.int n) = .float x ∧ x.val.IsNearest n.val
  float (x : FiniteDouble) : f (.float x) = .float x

namespace Value

variable {Obj : Type}

theorem ofJson_ofInt64 (n : Int64) : (ofJson (.ofInt64 n) : Value Obj) = .int n := by
  have hn : n.toInt < Word.signedEnd := n.toInt_lt
  change (if n.toInt < Word.signedEnd then Value.int (.ofInt n.toInt) else _) = _
  rw [if_pos hn, Int64.ofInt_toInt]

/-! From documents to values and back. -/

theorem isNearest_of_beyond {n : JsonInt} (h : ¬ n.val < Word.signedEnd) :
    (Double.ofInt n.val).IsNearest n.val := by
  have hpositive : 0 < n.val := lt_of_lt_of_le (by decide) (not_lt.mp h)
  exact Double.isNearest_ofInt hpositive n.bound

/-- What becomes of a number on the way to a value and back. -/
def narrow : JsonNumber → JsonNumber
  | .int n =>
      if h : n.val < Word.signedEnd then .int n
      else .float ⟨.ofInt n.val, (isNearest_of_beyond h).isFinite⟩
  | .float x => .float x

theorem narrows : JsonNumber.Narrows narrow where
  int h := dif_pos h
  nearest h := ⟨_, dif_neg (not_lt.mpr h), isNearest_of_beyond (not_lt.mpr h)⟩
  float _ := rfl

theorem toJson_ofJsonNumber (n : JsonNumber) :
    (ofJsonNumber n : Value Obj).toJson = .number (narrow n) := by
  cases n with
  | float x => exact Json.ofDouble_of_finite x.finite
  | int n =>
      by_cases h : n.val < Word.signedEnd
      · have hword : (Int64.ofInt n.val).toInt = n.val := Int64.toInt_ofInt_of_le n.least h
        rw [narrows.int h, ofJsonNumber, if_pos h, toJson, Json.ofInt64]
        obtain ⟨val, least, bound⟩ := n
        simp only [JsonInt.ofInt64, hword]
      · rw [ofJsonNumber, if_neg h, toJson, Json.ofDouble_of_finite (isNearest_of_beyond h).isFinite,
          narrow, dif_neg h]

mutual

theorem toJson_ofJson : ∀ j : Json, (ofJson j : Value Obj).toJson = j.mapNumbers narrow
  | .null | .bool _ | .string _ => rfl
  | .number n => toJson_ofJsonNumber n
  | .array items => congrArg Json.array (itemsToJson_ofItems items)
  | .object members => congrArg Json.object (fieldsToJson_ofMembers members)

theorem itemsToJson_ofItems :
    ∀ items : List Json, itemsToJson (ofItems items : List (Value Obj)) = Json.mapItems narrow items
  | [] => rfl
  | v :: rest => by
      rw [ofItems, itemsToJson, toJson_ofJson v, itemsToJson_ofItems rest]
      rfl

theorem fieldsToJson_ofMembers : ∀ members : List (String × Json),
    fieldsToJson (ofMembers members : List (String × Value Obj)) = Json.mapMembers narrow members
  | [] => rfl
  | (key, v) :: rest => by
      rw [ofMembers, fieldsToJson, toJson_ofJson v, fieldsToJson_ofMembers rest]
      rfl

end

/-! From values to documents and back. -/

/-- There is no object in the value, and no infinity or NaN. -/
inductive Portable : Value Obj → Prop
  | null : Portable .null
  | bool (b : Bool) : Portable (.bool b)
  | int (n : Int64) : Portable (.int n)
  | float {x : Double} (h : x.isFinite = true) : Portable (.float x)
  | string (s : String) : Portable (.string s)
  | list {items : List (Value Obj)} (h : ∀ v ∈ items, Portable v) : Portable (.list items)
  | map {fields : Fields (Value Obj)} (h : ∀ field ∈ fields, Portable field.2) :
      Portable (.map fields)

mutual

theorem ofJson_toJson : ∀ {v : Value Obj}, v.Portable → ofJson v.toJson = v
  | .null, _ | .bool _, _ | .string _, _ => rfl
  | .int n, _ => ofJson_ofInt64 n
  | .float x, h => by
      cases h with
      | float hfinite =>
          rw [toJson, Json.ofDouble_of_finite hfinite]
          rfl
  | .list items, h => by
      cases h with
      | list hitems => exact congrArg Value.list (ofItems_itemsToJson hitems)
  | .map fields, h => by
      cases h with
      | map hfields => exact congrArg Value.map (ofMembers_fieldsToJson hfields)

theorem ofItems_itemsToJson : ∀ {items : List (Value Obj)}, (∀ v ∈ items, v.Portable) →
    ofItems (itemsToJson items) = items
  | [], _ => rfl
  | v :: rest, h => by
      obtain ⟨hv, hrest⟩ := List.forall_mem_cons.mp h
      rw [itemsToJson, ofItems, ofJson_toJson hv, ofItems_itemsToJson hrest]

theorem ofMembers_fieldsToJson : ∀ {fields : List (String × Value Obj)},
    (∀ field ∈ fields, field.2.Portable) → ofMembers (fieldsToJson fields) = fields
  | [], _ => rfl
  | (name, v) :: rest, h => by
      obtain ⟨hv, hrest⟩ := List.forall_mem_cons.mp h
      rw [fieldsToJson, ofMembers, ofJson_toJson hv, ofMembers_fieldsToJson hrest]

end

/-- A document comes back from its value with the same members and items in the
same order, and with no number changed but the integers beyond the signed words,
which are rounded to the nearest number. A value without objects, infinities and
NaN comes back from its document as it is. -/
theorem json_back_and_forth :
    (∃ f, JsonNumber.Narrows f ∧ ∀ j : Json, (ofJson j : Value Obj).toJson = j.mapNumbers f) ∧
      ∀ v : Value Obj, v.Portable → ofJson v.toJson = v :=
  ⟨⟨narrow, narrows, toJson_ofJson⟩, fun _ => ofJson_toJson⟩

/-- Integers at both ends of their range, and a zero with a sign. -/
def gauge : Value Empty :=
  .map [("range", .list [.int (-9223372036854775808), .int 9223372036854775807]),
    ("reading", .map [("value", .float (.zero true)), ("unit", .null)])]

theorem gauge_back_and_forth : gauge.Portable ∧ ofJson gauge.toJson = gauge := by
  have hportable : gauge.Portable := by
    refine .map (List.forall_mem_cons.mpr ⟨.list ?_, List.forall_mem_singleton.mpr (.map ?_)⟩)
    · exact List.forall_mem_cons.mpr ⟨.int _, List.forall_mem_singleton.mpr (.int _)⟩
    · exact List.forall_mem_cons.mpr ⟨.float rfl, List.forall_mem_singleton.mpr .null⟩
  exact ⟨hportable, json_back_and_forth.2 gauge hportable⟩

end Value

end FieldQuery
