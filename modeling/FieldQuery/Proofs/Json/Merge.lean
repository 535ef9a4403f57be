import FieldQuery.Json.Merge
import FieldQuery.Proofs.Json.Union

/-!
Deep merge, read key by key: a key of a merged object has the value of the side
that has it, and both values merged if both sides do. Merging the same document
again changes nothing, and paths lead to merged parts.
-/

namespace FieldQuery

namespace Json

variable {policy : MergePolicy} {members others : Fields Json} {v w : Json}

/-- No array at the end of a path has two equal items. -/
def ArraysApart (v : Json) : Prop :=
  ∀ path items, v.at? path = some (.array items) → Apart items

namespace ArraysApart

theorem array {items : List Json} (h : Apart items) : (Json.array items).ArraysApart := by
  rintro (_ | ⟨key, path⟩) found hfound
  · cases hfound
    exact h
  · cases hfound

theorem object (h : ∀ member ∈ members, member.2.ArraysApart) :
    (Json.object members).ArraysApart := by
  rintro (_ | ⟨key, path⟩) found hfound
  · cases hfound
  · obtain ⟨v, hv, hpath⟩ := Option.bind_eq_some_iff.mp hfound
    exact h _ (Fields.mem_of_get? hv) path found hpath

theorem of_plain (hmember : ∀ key, v.member? key = none) (harray : v.asArray? = none) :
    v.ArraysApart := by
  rintro (_ | ⟨key, path⟩) found hfound
  · cases hfound
    cases harray
  · rw [at?, hmember] at hfound
    cases hfound

theorem items {items : List Json} (h : (Json.array items).ArraysApart) : Apart items :=
  h [] items rfl

theorem member {key : String} (h : (Json.object members).ArraysApart)
    (hv : Fields.get? members key = some v) : v.ArraysApart := by
  intro path found hfound
  refine h (key :: path) found ?_
  rw [at?, member?, hv]
  exact hfound

end ArraysApart

theorem get?_mergeMembers (hothers : (Fields.names others).Nodup) (key : String) :
    Fields.get? (mergeMembers policy members others) key =
      (Fields.get? members key).merge (merge policy) (Fields.get? others key) := by
  induction others generalizing members with
  | nil => exact (Option.merge_none_right).symm
  | cons member rest ih =>
      obtain ⟨name, v⟩ := member
      obtain ⟨hfresh, hrest⟩ := List.nodup_cons.mp hothers
      rw [mergeMembers, ih hrest, Fields.get?_put, Fields.get?]
      by_cases hname : name = key
      · subst hname
        rw [if_pos rfl, if_pos rfl, Fields.get?_eq_none hfresh]
        cases Fields.get? members name <;> rfl
      · rw [if_neg hname, if_neg hname]

/-- New keys go to the end, in their own order. -/
theorem names_mergeMembers (hothers : (Fields.names others).Nodup) :
    Fields.names (mergeMembers policy members others) =
      Fields.names members ++
        (Fields.names others).filter fun name => name ∉ Fields.names members := by
  induction others generalizing members with
  | nil => exact (List.append_nil _).symm
  | cons member rest ih =>
      obtain ⟨key, v⟩ := member
      obtain ⟨hfresh, hrest⟩ := List.nodup_cons.mp hothers
      rw [mergeMembers, ih hrest, Fields.names_put]
      change _ = Fields.names members ++ (key :: Fields.names rest).filter _
      by_cases hkey : key ∈ Fields.names members
      · rw [if_pos hkey, List.filter_cons_of_neg (by simpa using hkey)]
      · rw [if_neg hkey, List.filter_cons_of_pos (by simpa using hkey), List.append_assoc]
        refine congrArg (Fields.names members ++ key :: ·) (List.filter_congr fun name hname => ?_)
        have hne : name ≠ key := fun hsame => hfresh (hsame ▸ hname)
        simp [hne]

theorem nodup_mergeMembers (hmembers : (Fields.names members).Nodup)
    (hothers : (Fields.names others).Nodup) :
    (Fields.names (mergeMembers policy members others)).Nodup := by
  rw [names_mergeMembers hothers]
  refine List.nodup_append.mpr ⟨hmembers, hothers.filter _, fun name hname other hother => ?_⟩
  rintro rfl
  exact absurd hname (by simpa using (List.mem_filter.mp hother).2)

/-- A merged document repeats no key either. -/
theorem Distinct.merge {existing : Json} (hexisting : existing.Distinct) (hv : v.Distinct) :
    (Json.merge policy existing v).Distinct := by
  induction hv generalizing existing with
  | null =>
      rw [Json.merge]
      split
      next => exact hexisting
      next => exact .null
  | bool b => exact .bool b
  | number n => exact .number n
  | string s => exact .string s
  | @array others hothers _ =>
      cases existing with
      | array items =>
          rw [Json.merge]
          split
          next =>
            refine .array fun v hv => ?_
            rcases List.mem_append.mp (mem_of_mem_unionItems_nil hv) with hitem | hother
            · exact hexisting.item v hitem
            · exact hothers v hother
          next => exact .array hothers
      | _ => exact .array hothers
  | @object others hnames hothers ih =>
      cases existing with
      | object members =>
          have hmerged : (Fields.names (mergeMembers policy members others)).Nodup :=
            nodup_mergeMembers hexisting.nodup_names hnames
          rw [Json.merge]
          refine .object hmerged fun member hmember => ?_
          have hget := Fields.get?_of_mem hmerged hmember
          rw [get?_mergeMembers hnames] at hget
          rcases Option.merge_eq_some_iff.mp hget with
            ⟨hmember, -⟩ | ⟨-, hother⟩ | ⟨existing, other, hmember, hother, hvalue⟩
          · exact hexisting.member hmember
          · exact hothers _ (Fields.mem_of_get? hother)
          · rw [← hvalue]
            exact ih _ (Fields.mem_of_get? hother) (hexisting.member hmember)
      | _ => exact .object hnames hothers

/-- Members that change nothing where they are merged change nothing together. -/
theorem mergeMembers_of_absorbed
    (h : ∀ member ∈ others, ∃ existing,
      Fields.get? members member.1 = some existing ∧ merge policy existing member.2 = existing) :
    mergeMembers policy members others = members := by
  induction others with
  | nil => rfl
  | cons member rest ih =>
      obtain ⟨⟨existing, hexisting, habsorbed⟩, hrest⟩ := List.forall_mem_cons.mp h
      rw [mergeMembers, hexisting]
      dsimp only
      rw [habsorbed, Fields.put_self hexisting, ih hrest]

/-- Merging a document into itself changes nothing. -/
theorem merge_self (hv : v.Distinct) (hapart : policy.unionArrays = true → v.ArraysApart) :
    merge policy v v = v := by
  induction hv with
  | null => exact ite_self _
  | bool b => rfl
  | number n => rfl
  | string s => rfl
  | @array items hitems _ =>
      rw [merge]
      split
      next hunion =>
        have hkept : unionItems [] items = items := unionItems_of_apart (hapart hunion).items
        rw [unionItems_append, hkept, unionItems_of_covered]
        exact fun v hv => ⟨v, hv, same_self (hitems v hv)⟩
      next => rfl
  | @object members hnames _ ih =>
      rw [merge, mergeMembers_of_absorbed]
      intro member hmember
      have hget := Fields.get?_of_mem hnames hmember
      exact ⟨_, hget, ih member hmember fun hunion => (hapart hunion).member hget⟩

/-- The second of two equal merges finds every value of its document there. -/
theorem merge_merge_self (hv : v.Distinct) (hapart : policy.unionArrays = true → v.ArraysApart)
    (existing : Json) : merge policy (merge policy existing v) v = merge policy existing v := by
  induction hv generalizing existing with
  | null =>
      simp only [merge]
      split <;> rfl
  | bool b => rfl
  | number n => rfl
  | string s => rfl
  | @array others hothers _ =>
      cases existing with
      | array items =>
          rw [merge]
          split
          next hunion => rw [merge, if_pos hunion, unionItems_again items hothers]
          next hreplace => rw [merge, if_neg hreplace]
      | _ => exact merge_self (.array hothers) hapart
  | @object others hnames hothers ih =>
      cases existing with
      | object members =>
          rw [merge, merge, mergeMembers_of_absorbed]
          -- A key that only the document had was copied, and its value meets itself now.
          intro member hmember
          have hget := Fields.get?_of_mem hnames hmember
          have hmemberApart : policy.unionArrays = true → member.2.ArraysApart :=
            fun hunion => (hapart hunion).member hget
          rw [get?_mergeMembers hnames, hget]
          cases Fields.get? members member.1 with
          | none => exact ⟨_, rfl, merge_self (hothers member hmember) hmemberApart⟩
          | some existing => exact ⟨_, rfl, ih member hmember hmemberApart existing⟩
      | _ => exact merge_self (.object hnames hothers) hapart

/-- A path that both documents have leads to the merge of what it leads to in them. -/
theorem at?_merge {existing x y : Json} {path : List String} (hv : v.Distinct)
    (hx : existing.at? path = some x) (hy : v.at? path = some y) :
    (merge policy existing v).at? path = some (merge policy x y) := by
  induction path generalizing existing v with
  | nil =>
      cases hx
      cases hy
      rfl
  | cons key path ih =>
      obtain ⟨first, hfirst, hxrest⟩ := Option.bind_eq_some_iff.mp hx
      obtain ⟨second, hsecond, hyrest⟩ := Option.bind_eq_some_iff.mp hy
      obtain ⟨members, rfl, hmember⟩ := member?_eq_some hfirst
      obtain ⟨others, rfl, hother⟩ := member?_eq_some hsecond
      have hmerged : (merge policy (.object members) (.object others)).member? key =
          some (merge policy first second) := by
        rw [merge, member?, get?_mergeMembers hv.nodup_names, hmember, hother]
        rfl
      rw [at?, hmerged]
      exact ih (hv.member hother) hxrest hyrest

/-- Merging a second time changes nothing, neither values nor the order of
keys: always if arrays are replaced, and if they are united as long as no array
that is merged repeats an item. Arrays united are all items of both sides
without repetitions, each where it was first. -/
theorem mergeMembers_again (policy : MergePolicy) {base incoming : Fields Json}
    (hbase : (object base).Distinct) (hincoming : (object incoming).Distinct) :
    ((policy.unionArrays = true → (object incoming).ArraysApart) →
      mergeMembers policy (mergeMembers policy base incoming) incoming =
        mergeMembers policy base incoming) ∧
    (policy.unionArrays = true → ∀ path items others,
      (object base).at? path = some (.array items) →
      (object incoming).at? path = some (.array others) →
      ∃ union, (object (mergeMembers policy base incoming)).at? path = some (.array union) ∧
        (∀ v ∈ items ++ others, ∃ u ∈ union, u.same v = true) ∧
        Apart union ∧ union = firstAppearances (items ++ others)) := by
  refine ⟨fun hapart => ?_, fun hunion path items others hitems hothers => ?_⟩
  · have h := merge_merge_self hincoming hapart (.object base)
    simpa only [merge, object.injEq] using h
  · have hdistinct : ∀ v ∈ items ++ others, v.Distinct :=
      List.forall_mem_append.mpr ⟨(hbase.at? hitems).item, (hincoming.at? hothers).item⟩
    refine ⟨unionItems [] (items ++ others), ?_, exists_same_unionItems hdistinct,
      apart_unionItems .nil, unionItems_eq_firstAppearances hdistinct⟩
    have h : (merge policy (.object base) (.object incoming)).at? path =
        some (merge policy (.array items) (.array others)) := at?_merge hincoming hitems hothers
    simpa only [merge, if_pos hunion] using h

end Json

/-! A profile as it is stored, and what was fetched for it. -/

namespace Profile

def storedUser : Fields Json :=
  [("name", .string "Ada"), ("tags", .array [.string "a", .string "a"])]

def stored : Fields Json := [("user", .object storedUser), ("note", .null)]

def fetchedUser : Fields Json :=
  [("tags", .array [.string "b", .string "a"]), ("name", .null), ("active", .bool true)]

def fetched : Fields Json := [("note", .string "seen"), ("user", .object fetchedUser)]

theorem stored_distinct : (Json.object stored).Distinct := by
  simp [stored, storedUser, Fields.names]

theorem fetched_distinct : (Json.object fetched).Distinct := by
  simp [fetched, fetchedUser, Fields.names]

theorem fetched_arraysApart : (Json.object fetched).ArraysApart := by
  have hname : Json.null.ArraysApart := .of_plain (fun _ => rfl) rfl
  have hactive : (Json.bool true).ArraysApart := .of_plain (fun _ => rfl) rfl
  have hnote : (Json.string "seen").ArraysApart := .of_plain (fun _ => rfl) rfl
  have htags : (Json.array [.string "b", .string "a"]).ArraysApart :=
    .array (List.pairwise_pair.mpr rfl)
  have huser : (Json.object fetchedUser).ArraysApart :=
    .object (by simp [fetchedUser, htags, hname, hactive])
  exact .object (by simp [fetched, huser, hnote])

/-- Fetched a second time, the profile stays as it is, with every tag of both sides once. -/
theorem fetched_again :
    (Json.object stored).Distinct ∧ (Json.object fetched).Distinct ∧
      (Json.object fetched).ArraysApart ∧
      Json.mergeMembers .union (Json.mergeMembers .union stored fetched) fetched =
        Json.mergeMembers .union stored fetched ∧
      ∃ union, (Json.object (Json.mergeMembers .union stored fetched)).at? ["user", "tags"] =
          some (.array union) ∧
        union = Json.firstAppearances [.string "a", .string "a", .string "b", .string "a"] := by
  have h := Json.mergeMembers_again .union stored_distinct fetched_distinct
  obtain ⟨union, hunion, -, -, hfirst⟩ := h.2 rfl ["user", "tags"] _ _ rfl rfl
  exact ⟨stored_distinct, fetched_distinct, fetched_arraysApart,
    h.1 fun _ => fetched_arraysApart, union, hunion, hfirst⟩

end Profile

end FieldQuery
