import FieldQuery.Json.Basic
import FieldQuery.Proofs.Fields

/-!
Documents in which no object repeats a key.

A document is also a tree of objects: a path of keys leads through objects
only, and never into an array.
-/

namespace FieldQuery.Json

/-- No object of the document repeats a key. -/
inductive Distinct : Json → Prop
  | null : Distinct .null
  | bool (b : Bool) : Distinct (.bool b)
  | number (n : JsonNumber) : Distinct (.number n)
  | string (s : String) : Distinct (.string s)
  | array {items : List Json} (h : ∀ v ∈ items, Distinct v) : Distinct (.array items)
  | object {members : Fields Json} (hnames : (Fields.names members).Nodup)
      (h : ∀ member ∈ members, Distinct member.2) : Distinct (.object members)

attribute [simp] Distinct.null Distinct.bool Distinct.number Distinct.string

namespace Distinct

variable {members : Fields Json} {v : Json}

theorem item {items : List Json} (h : (Json.array items).Distinct) : ∀ v ∈ items, v.Distinct := by
  cases h with
  | array hitems => exact hitems

theorem nodup_names (h : (Json.object members).Distinct) : (Fields.names members).Nodup := by
  cases h with
  | object hnames _ => exact hnames

theorem member {key : String} (h : (Json.object members).Distinct)
    (hv : Fields.get? members key = some v) : v.Distinct := by
  cases h with
  | object _ hmembers => exact hmembers _ (Fields.mem_of_get? hv)

end Distinct

@[simp] theorem distinct_array {items : List Json} :
    (Json.array items).Distinct ↔ ∀ v ∈ items, v.Distinct :=
  ⟨Distinct.item, .array⟩

@[simp] theorem distinct_object {members : Fields Json} :
    (Json.object members).Distinct ↔
      (Fields.names members).Nodup ∧ ∀ member ∈ members, member.2.Distinct := by
  constructor
  · rintro (_ | _ | _ | _ | _ | ⟨hnames, h⟩)
    exact ⟨hnames, h⟩
  · exact fun ⟨hnames, h⟩ => .object hnames h

/-- The part of a document at the end of a path of keys. -/
def at? (v : Json) : List String → Option Json
  | [] => some v
  | key :: path => (v.member? key).bind (at? · path)

theorem member?_eq_some {v w : Json} {key : String} (h : v.member? key = some w) :
    ∃ members, v = .object members ∧ Fields.get? members key = some w := by
  cases v with
  | object members => exact ⟨members, rfl, h⟩
  | _ => cases h

theorem Distinct.at? {v w : Json} {path : List String} (h : v.Distinct)
    (hw : v.at? path = some w) : w.Distinct := by
  induction path generalizing v with
  | nil =>
      cases hw
      exact h
  | cons key path ih =>
      obtain ⟨u, hu, hrest⟩ := Option.bind_eq_some_iff.mp hw
      obtain ⟨members, rfl, hmember⟩ := member?_eq_some hu
      exact ih (h.member hmember) hrest

end FieldQuery.Json
