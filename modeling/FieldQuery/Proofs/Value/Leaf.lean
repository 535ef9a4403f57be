import FieldQuery.Host.Record
import FieldQuery.Proofs.Simulation.Value

/-!
What comes out of a value that no selection is asked of. Objects have no JSON
form, and the JSON form of a value around them does not tell them apart. A leaf
is the JSON form or nothing: one list or object among the items of a list is
enough for the list to be left out.
-/

namespace FieldQuery

/-- A step from a list to one of its items, or from a map to a field. -/
inductive Place where
  | item (index : Nat)
  | key (name : String)

namespace Json

def child? : Json → Place → Option Json
  | .array items, .item index => items[index]?
  | .object members, .key name => Fields.get? members name
  | _, _ => none

/-- The part of a document at the end of a path. -/
def part? (v : Json) : List Place → Option Json
  | [] => some v
  | place :: path => (v.child? place).bind (part? · path)

theorem child?_ofDouble (x : Double) (place : Place) : (ofDouble x).child? place = none := by
  unfold ofDouble
  cases JsonNumber.ofDouble? x <;> rfl

end Json

namespace Value

variable {Obj Obj' : Type}

/-- What stands in a list or a map. Objects have no parts. -/
def child? : Value Obj → Place → Option (Value Obj)
  | .list items, .item index => items[index]?
  | .map fields, .key name => Fields.get? fields name
  | _, _ => none

/-- The part of a value at the end of a path. -/
def part? (v : Value Obj) : List Place → Option (Value Obj)
  | [] => some v
  | place :: path => (v.child? place).bind (part? · path)

/-! The JSON form has a part wherever the value has one, and nowhere else. -/

theorem itemsToJson_eq_map (items : List (Value Obj)) : itemsToJson items = items.map toJson := by
  induction items with
  | nil => rfl
  | cons v rest ih => rw [itemsToJson, ih, List.map_cons]

theorem get?_fieldsToJson (fields : Fields (Value Obj)) (name : String) :
    Fields.get? (fieldsToJson fields) name = (Fields.get? fields name).map toJson := by
  induction fields with
  | nil => rfl
  | cons field rest ih =>
      obtain ⟨key, v⟩ := field
      by_cases hkey : key = name
      · simp [fieldsToJson, Fields.get?, hkey]
      · simp [fieldsToJson, Fields.get?, hkey, ih]

theorem child?_toJson (v : Value Obj) (place : Place) :
    v.toJson.child? place = (v.child? place).map toJson := by
  cases v with
  | float x => exact Json.child?_ofDouble x place
  | list items =>
      cases place with
      | item index => simp [toJson, Json.child?, child?, itemsToJson_eq_map]
      | key name => rfl
  | map fields =>
      cases place with
      | item index => rfl
      | key name => exact get?_fieldsToJson fields name
  | _ => rfl

theorem part?_toJson (v : Value Obj) (path : List Place) :
    v.toJson.part? path = (v.part? path).map toJson := by
  induction path generalizing v with
  | nil => rfl
  | cons place path ih =>
      rw [Json.part?, part?, child?_toJson]
      cases v.child? place with
      | none => rfl
      | some part => exact ih part

theorem part?_toJson_of_object {v : Value Obj} {path : List Place} {o : Obj}
    (h : v.part? path = some (.object o)) : v.toJson.part? path = some .null := by
  rw [part?_toJson, h]
  rfl

/-! A leaf is the JSON form or nothing. -/

theorem isSimple_eq_false_iff {v : Value Obj} :
    v.isSimple = false ↔ (∃ items, v = .list items) ∨ ∃ o, v = .object o := by
  cases v <;> simp [isSimple]

theorem toLeaf_eq_null_or_toJson (v : Value Obj) : v.toLeaf = .null ∨ v.toLeaf = v.toJson := by
  cases v with
  | list items =>
      rw [toLeaf]
      split
      next => exact .inr rfl
      next => exact .inl rfl
  | _ => exact .inr rfl

theorem all_isSimple_eq_false_iff {items : List (Value Obj)} :
    items.all isSimple = false ↔
      ∃ item ∈ items, (∃ inner, item = .list inner) ∨ ∃ o, item = .object o := by
  simp only [List.all_eq_false, Bool.not_eq_true, isSimple_eq_false_iff]

theorem toLeaf_list_eq_null_iff {items : List (Value Obj)} :
    (Value.list items).toLeaf = .null ↔
      ∃ item ∈ items, (∃ inner, item = .list inner) ∨ ∃ o, item = .object o := by
  rw [← all_isSimple_eq_false_iff, toLeaf]
  cases items.all isSimple with
  | false => simp
  | true => simp

/-- A leaf reveals no object. Values that differ only in the objects at their
object positions, be it objects of different hosts, have the same JSON form and
the same leaf. What stands at an object position is null in the JSON form, and
in every leaf that is output at all, as that of a map always is. The leaf of a
list is null just if a list or an object is among its items. -/
theorem leaf_conceals_objects :
    (∀ (v : Value Obj) (w : Value Obj'), Corresponds (fun _ _ => True) v w →
        v.toLeaf = w.toLeaf ∧ v.toJson = w.toJson) ∧
      (∀ (v : Value Obj) (path : List Place) (o : Obj), v.part? path = some (.object o) →
        v.toJson.part? path = some .null ∧
          (v.toLeaf = .null ∨ v.toLeaf.part? path = some .null)) ∧
      (∀ (fields : Fields (Value Obj)) (path : List Place) (o : Obj),
        (Value.map fields).part? path = some (.object o) →
          (Value.map fields).toLeaf.part? path = some .null) ∧
      ∀ items : List (Value Obj), (Value.list items).toLeaf = .null ↔
        ∃ item ∈ items, (∃ inner, item = .list inner) ∨ ∃ o, item = .object o := by
  refine ⟨fun v w h => ⟨h.toLeaf_eq, h.toJson_eq⟩, fun v path o h => ?_,
    fun fields path o h => part?_toJson_of_object h, fun _ => toLeaf_list_eq_null_iff⟩
  have hjson := part?_toJson_of_object h
  refine ⟨hjson, (toLeaf_eq_null_or_toJson v).imp_right fun hleaf => ?_⟩
  rw [hleaf, hjson]

end Value

namespace Vault

def secret (password : String) : Host.Record :=
  ⟨0, "Secret", none, none, [("password", .string password)], []⟩

/-- Secrets in a list and in a map below a map. -/
def drawer (password : String) : Value Host.Record :=
  .map [("label", .string "keys"),
    ("secrets", .list [.object (secret password), .map [("spare", .object (secret password))]])]

theorem drawers_correspond (password other : String) :
    Value.Corresponds (fun _ _ => True) (drawer password) (drawer other) := by
  have hspare : Value.Corresponds (fun _ _ => True)
      (.map [("spare", .object (secret password))]) (.map [("spare", .object (secret other))]) :=
    .map (.cons "spare" (.object trivial) .nil)
  exact .map (.cons "label" (.string "keys")
    (.cons "secrets" (.list (.cons (.object trivial) (.cons hspare .nil))) .nil))

def spare : List Place := [.key "secrets", .item 1, .key "spare"]

/-- Drawers look the same whatever the passwords in them. The spare secret is
null in a drawer that stands alone or in a list, and a list of a drawer and a
secret is left out. -/
theorem drawer_concealed :
    (Value.Corresponds (fun _ _ => True) (drawer "hunter2") (drawer "sesame") ∧
        (drawer "hunter2").toLeaf = (drawer "sesame").toLeaf ∧
        (drawer "hunter2").toJson = (drawer "sesame").toJson) ∧
      ((drawer "hunter2").part? spare = some (.object (secret "hunter2")) ∧
        (drawer "hunter2").toLeaf.part? spare = some .null) ∧
      ((Value.list [drawer "hunter2"]).part? (.item 0 :: spare) =
          some (.object (secret "hunter2")) ∧
        (Value.list [drawer "hunter2"]).toLeaf.part? (.item 0 :: spare) = some .null) ∧
      (Value.list [drawer "hunter2", .object (secret "sesame")]).toLeaf = .null := by
  obtain ⟨hblind, hparts, hmaps, hlists⟩ :=
    @Value.leaf_conceals_objects Host.Record Host.Record
  have hspare : (drawer "hunter2").part? spare = some (.object (secret "hunter2")) := rfl
  have hlisted : (Value.list [drawer "hunter2"]).part? (.item 0 :: spare) =
      some (.object (secret "hunter2")) := rfl
  have houtput : (Value.list [drawer "hunter2"]).toLeaf ≠ .null := by
    rw [ne_eq, hlists]
    simp [drawer]
  have hcorrespond := drawers_correspond "hunter2" "sesame"
  refine ⟨⟨hcorrespond, hblind _ _ hcorrespond⟩, ⟨hspare, hmaps _ spare _ hspare⟩,
    ⟨hlisted, (hparts _ _ _ hlisted).2.resolve_left houtput⟩, ?_⟩
  exact (hlists _).mpr ⟨_, by simp, .inr ⟨secret "sesame", rfl⟩⟩

end Vault

end FieldQuery
