import FieldQuery.Proofs.Json.Merge

/-!
Grouping of merges. Under a policy that keeps values on `null`, merging is
associative on documents that agree about kinds, so partial results can be
merged in groups.
-/

namespace FieldQuery

namespace Json

variable {policy : MergePolicy} {members others : Fields Json} {v w : Json}

inductive Kind where
  | null
  | scalar
  | array
  | object
deriving DecidableEq

def kind : Json → Kind
  | .null => .null
  | .array _ => .array
  | .object _ => .object
  | _ => .scalar

/-- Where a path leads to something else than `null` in both documents, it
leads to objects, to arrays or to scalars in both. -/
def KindCompatible (v w : Json) : Prop :=
  ∀ path x y, v.at? path = some x → w.at? path = some y → x ≠ .null → y ≠ .null → x.kind = y.kind

namespace KindCompatible

theorem kind_eq (h : KindCompatible v w) (hv : v ≠ .null) (hw : w ≠ .null) : v.kind = w.kind :=
  h [] v w rfl rfl hv hw

theorem member {key : String} (h : KindCompatible (.object members) (.object others))
    (hv : Fields.get? members key = some v) (hw : Fields.get? others key = some w) :
    KindCompatible v w := by
  intro path x y hx hy
  refine h (key :: path) x y ?_ ?_
  · rw [at?, member?, hv]
    exact hx
  · rw [at?, member?, hw]
    exact hy

theorem of_plain (hplain : ∀ key, v.member? key = none)
    (h : v ≠ .null → w ≠ .null → v.kind = w.kind) : KindCompatible v w := by
  rintro (_ | ⟨key, path⟩) x y hx hy
  · cases hx
    cases hy
    exact h
  · rw [at?, hplain] at hx
    cases hx

theorem object (h : ∀ member ∈ members, ∀ w, Fields.get? others member.1 = some w →
    KindCompatible member.2 w) : KindCompatible (.object members) (.object others) := by
  rintro (_ | ⟨key, path⟩) x y hx hy
  · cases hx
    cases hy
    exact fun _ _ => rfl
  · obtain ⟨v, hv, hx⟩ := Option.bind_eq_some_iff.mp hx
    obtain ⟨w, hw, hy⟩ := Option.bind_eq_some_iff.mp hy
    exact h _ (Fields.mem_of_get? hv) w hw path x y hx hy

end KindCompatible

theorem eq_array_of_kind (h : v.kind = .array) : ∃ items, v = .array items := by
  cases v with
  | array items => exact ⟨items, rfl⟩
  | _ => cases h

theorem eq_object_of_kind (h : v.kind = .object) : ∃ members, v = .object members := by
  cases v with
  | object members => exact ⟨members, rfl⟩
  | _ => cases h

theorem merge_null (hkeep : policy.keepOnNull = true) (v : Json) : merge policy v .null = v := by
  rw [merge, if_pos hkeep]

theorem null_merge (policy : MergePolicy) (v : Json) : merge policy .null v = v := by
  cases v with
  | null => exact ite_self _
  | _ => rfl

theorem merge_of_scalar (h : w.kind = .scalar) (v : Json) : merge policy v w = w := by
  cases w with
  | bool b => rfl
  | number n => rfl
  | string s => rfl
  | _ => cases h

/-- Where three objects share a key, its values decide whether merging them is
associative; everywhere else it is. -/
theorem mergeMembers_assoc_of_members {first second third : Fields Json}
    (hfirst : (Fields.names first).Nodup) (hsecond : (Fields.names second).Nodup)
    (hthird : (Fields.names third).Nodup)
    (h : ∀ key x y z, Fields.get? first key = some x → Fields.get? second key = some y →
      Fields.get? third key = some z →
        merge policy (merge policy x y) z = merge policy x (merge policy y z)) :
    mergeMembers policy (mergeMembers policy first second) third =
      mergeMembers policy first (mergeMembers policy second third) := by
  have hleft : (Fields.names (mergeMembers policy first second)).Nodup :=
    nodup_mergeMembers hfirst hsecond
  have hright : (Fields.names (mergeMembers policy second third)).Nodup :=
    nodup_mergeMembers hsecond hthird
  refine Fields.ext_of_get? ?_ (nodup_mergeMembers hleft hthird) fun key => ?_
  · rw [names_mergeMembers hthird, names_mergeMembers hsecond, names_mergeMembers hright,
      names_mergeMembers hthird, List.append_assoc, List.filter_append, List.filter_filter]
    congr 2
    exact List.filter_congr fun name _ => by grind
  · rw [get?_mergeMembers hthird, get?_mergeMembers hsecond, get?_mergeMembers hright,
      get?_mergeMembers hthird]
    cases hx : Fields.get? first key with
    | none => simp
    | some x =>
        cases hy : Fields.get? second key with
        | none => simp
        | some y =>
            cases hz : Fields.get? third key with
            | none => simp
            | some z => exact congrArg some (h key x y z hx hy hz)

/-- A `null` beside the middle document changes nothing, so only documents of
its kind are left to look at. -/
theorem merge_assoc_of_kind (hkeep : policy.keepOnNull = true) {first second third : Json}
    (hsecond : second ≠ .null) (hbefore : KindCompatible first second)
    (hafter : KindCompatible second third)
    (h : first.kind = second.kind → third.kind = second.kind →
      merge policy (merge policy first second) third =
        merge policy first (merge policy second third)) :
    merge policy (merge policy first second) third =
      merge policy first (merge policy second third) := by
  by_cases hfirst : first = .null
  · rw [hfirst, null_merge, null_merge]
  · by_cases hthird : third = .null
    · rw [hthird, merge_null hkeep, merge_null hkeep]
    · exact h (hbefore.kind_eq hfirst hsecond) (hafter.kind_eq hsecond hthird).symm

theorem merge_assoc (hkeep : policy.keepOnNull = true) {first second third : Json}
    (hfirst : first.Distinct) (hsecond : second.Distinct) (hthird : third.Distinct)
    (hbefore : KindCompatible first second) (hafter : KindCompatible second third) :
    merge policy (merge policy first second) third =
      merge policy first (merge policy second third) := by
  induction hsecond generalizing first third with
  | null => rw [merge_null hkeep, null_merge]
  | bool b | number n | string s =>
      refine merge_assoc_of_kind hkeep (by simp) hbefore hafter fun _ hkind => ?_
      rw [merge_of_scalar hkind, merge_of_scalar hkind, merge_of_scalar hkind]
  | @array items hitems _ =>
      refine merge_assoc_of_kind hkeep (by simp) hbefore hafter fun hkind hkind' => ?_
      obtain ⟨earlier, rfl⟩ := eq_array_of_kind hkind
      obtain ⟨later, rfl⟩ := eq_array_of_kind hkind'
      by_cases hunion : policy.unionArrays = true
      · simp only [merge, if_pos hunion, unionItems_assoc hfirst.item hitems hthird.item]
      · simp only [merge, if_neg hunion]
  | @object members hnames hmembers ih =>
      refine merge_assoc_of_kind hkeep (by simp) hbefore hafter fun hkind hkind' => ?_
      obtain ⟨earlier, rfl⟩ := eq_object_of_kind hkind
      obtain ⟨later, rfl⟩ := eq_object_of_kind hkind'
      simp only [merge, object.injEq]
      refine mergeMembers_assoc_of_members hfirst.nodup_names hnames hthird.nodup_names ?_
      intro key x y z hx hy hz
      exact ih _ (Fields.mem_of_get? hy) (hfirst.member hx) (hthird.member hz)
        (hbefore.member hx hy) (hafter.member hy hz)

/-- Partial results can be merged in groups, with the same values under the
same keys in the same order, if neighbouring results agree about kinds. -/
theorem mergeMembers_assoc (hkeep : policy.keepOnNull = true) {first second third : Fields Json}
    (hfirst : (object first).Distinct) (hsecond : (object second).Distinct)
    (hthird : (object third).Distinct) (hbefore : KindCompatible (.object first) (.object second))
    (hafter : KindCompatible (.object second) (.object third)) :
    mergeMembers policy (mergeMembers policy first second) third =
      mergeMembers policy first (mergeMembers policy second third) := by
  have h := merge_assoc hkeep hfirst hsecond hthird hbefore hafter
  simpa only [merge, object.injEq] using h

end Json

/-! A change of the profile that comes after what was fetched for it. -/

namespace Profile

def changedUser : Fields Json :=
  [("name", .string "Ada L."), ("tags", .array [.string "c", .string "b"]),
    ("home", .object [("city", .string "London")])]

def changed : Fields Json := [("user", .object changedUser), ("note", .null)]

theorem changed_distinct : (Json.object changed).Distinct := by
  simp [changed, changedUser, Fields.names]

theorem stored_kindCompatible : Json.KindCompatible (.object stored) (.object fetched) := by
  have hname : Json.KindCompatible (.string "Ada") .null := .of_plain (fun _ => rfl) (by simp)
  have htags : Json.KindCompatible (.array [.string "a", .string "a"])
      (.array [.string "b", .string "a"]) := .of_plain (fun _ => rfl) fun _ _ => rfl
  have hnote : Json.KindCompatible .null (.string "seen") := .of_plain (fun _ => rfl) (by simp)
  have huser : Json.KindCompatible (.object storedUser) (.object fetchedUser) :=
    .object (by simp [storedUser, fetchedUser, Fields.get?, hname, htags])
  exact .object (by simp [stored, fetched, Fields.get?, huser, hnote])

theorem fetched_kindCompatible : Json.KindCompatible (.object fetched) (.object changed) := by
  have htags : Json.KindCompatible (.array [.string "b", .string "a"])
      (.array [.string "c", .string "b"]) := .of_plain (fun _ => rfl) fun _ _ => rfl
  have hname : Json.KindCompatible .null (.string "Ada L.") := .of_plain (fun _ => rfl) (by simp)
  have hnote : Json.KindCompatible (.string "seen") .null := .of_plain (fun _ => rfl) (by simp)
  have huser : Json.KindCompatible (.object fetchedUser) (.object changedUser) :=
    .object (by simp [fetchedUser, changedUser, Fields.get?, htags, hname])
  exact .object (by simp [fetched, changed, Fields.get?, hnote, huser])

/-- What was fetched and what was changed can be merged first. -/
theorem grouped :
    MergePolicy.union.keepOnNull = true ∧ (Json.object stored).Distinct ∧
      (Json.object fetched).Distinct ∧ (Json.object changed).Distinct ∧
      Json.KindCompatible (.object stored) (.object fetched) ∧
      Json.KindCompatible (.object fetched) (.object changed) ∧
      Json.mergeMembers .union (Json.mergeMembers .union stored fetched) changed =
        Json.mergeMembers .union stored (Json.mergeMembers .union fetched changed) :=
  ⟨rfl, stored_distinct, fetched_distinct, changed_distinct, stored_kindCompatible,
    fetched_kindCompatible,
    Json.mergeMembers_assoc rfl stored_distinct fetched_distinct changed_distinct
      stored_kindCompatible fetched_kindCompatible⟩

end Profile

end FieldQuery
