import FieldQuery.Fields

/-!
Ordered maps as lists of pairs: which fields and which names are there after a
value was put under a key.
-/

namespace FieldQuery.Fields

variable {α : Type}

theorem length_put_of_has {fields : Fields α} {key : String} (h : has fields key = true)
    (value : α) : (put fields key value).length = fields.length := by
  induction fields with
  | nil => simp [has, get?] at h
  | cons field rest ih =>
    obtain ⟨name, old⟩ := field
    by_cases hname : name = key
    · simp [put, hname]
    · have hrest : has rest key = true := by simpa [has, get?, hname] using h
      simp [put, hname, ih hrest]

theorem length_put_le (fields : Fields α) (key : String) (value : α) :
    (put fields key value).length ≤ fields.length + 1 := by
  induction fields with
  | nil => simp [put]
  | cons field rest ih =>
    obtain ⟨name, old⟩ := field
    by_cases hname : name = key
    · simp [put, hname]
    · simpa [put, hname] using ih

theorem mem_of_get? {fields : Fields α} {key : String} {value : α}
    (h : get? fields key = some value) : (key, value) ∈ fields := by
  induction fields with
  | nil => cases h
  | cons field rest ih =>
    obtain ⟨name, first⟩ := field
    by_cases hname : name = key
    · subst hname
      obtain rfl : first = value := by simpa [get?] using h
      exact .head _
    · exact .tail _ (ih (by simpa [get?, hname] using h))

/-- With distinct names, every field is the one of its name. -/
theorem get?_of_mem {fields : Fields α} (hnames : (names fields).Nodup) {key : String} {value : α}
    (h : (key, value) ∈ fields) : get? fields key = some value := by
  induction fields with
  | nil => cases h
  | cons field rest ih =>
      obtain ⟨name, first⟩ := field
      obtain ⟨hfresh, hrest⟩ := List.nodup_cons.mp hnames
      rcases List.mem_cons.mp h with hhead | htail
      · cases hhead
        exact if_pos rfl
      · have hne : name ≠ key := by
          rintro rfl
          exact hfresh (List.mem_map.mpr ⟨_, htail, rfl⟩)
        exact (if_neg hne).trans (ih hrest htail)

theorem mem_put {fields : Fields α} {key : String} {value : α} {field : String × α}
    (h : field ∈ put fields key value) : field ∈ fields ∨ field.2 = value := by
  induction fields with
  | nil => simp_all [put]
  | cons head rest ih =>
    obtain ⟨name, first⟩ := head
    by_cases hname : name = key
    · simp only [put, hname, if_true, List.mem_cons] at h
      rcases h with rfl | h
      · exact .inr rfl
      · exact .inl (.tail _ h)
    · simp only [put, hname, if_false, List.mem_cons] at h
      rcases h with rfl | h
      · exact .inl (.head _)
      · exact (ih h).imp_left (.tail _)

theorem names_put (fields : Fields α) (key : String) (value : α) :
    names (put fields key value) =
      if key ∈ names fields then names fields else names fields ++ [key] := by
  induction fields with
  | nil => rfl
  | cons field rest ih =>
      obtain ⟨name, old⟩ := field
      change _ = if key ∈ name :: names rest then name :: names rest
        else name :: names rest ++ [key]
      by_cases hname : name = key
      · rw [put, if_pos hname, if_pos (hname ▸ List.mem_cons_self)]
        rfl
      · have hmem : key ∈ name :: names rest ↔ key ∈ names rest := by
          simp [Ne.symm hname]
        rw [put, if_neg hname]
        change name :: names (put rest key value) = _
        rw [ih]
        by_cases hrest : key ∈ names rest
        · rw [if_pos hrest, if_pos (hmem.mpr hrest)]
        · rw [if_neg hrest, if_neg (mt hmem.mp hrest)]
          rfl

theorem nodup_put {fields : Fields α} (h : (names fields).Nodup) (key : String) (value : α) :
    (names (put fields key value)).Nodup := by
  rw [names_put]
  split
  next => exact h
  next hkey =>
    refine List.nodup_append.mpr ⟨h, by simp, fun name hname other hother => ?_⟩
    obtain rfl := List.mem_singleton.mp hother
    exact fun hsame => hkey (hsame ▸ hname)

theorem get?_eq_none {fields : Fields α} {key : String} (h : key ∉ names fields) :
    get? fields key = none := by
  induction fields with
  | nil => rfl
  | cons field rest ih =>
      obtain ⟨name, value⟩ := field
      have hname : name ≠ key := fun hsame => h (hsame ▸ List.mem_cons_self)
      rw [get?, if_neg hname]
      exact ih fun hrest => h (.tail _ hrest)

theorem names_erase (fields : Fields α) (key : String) :
    names (erase fields key) = (names fields).erase key := by
  induction fields with
  | nil => rfl
  | cons field rest ih =>
      obtain ⟨name, value⟩ := field
      change names (erase ((name, value) :: rest) key) = (name :: names rest).erase key
      rw [erase, List.erase_cons]
      by_cases hname : name = key
      · simp [hname]
      · simpa [hname, names] using ih

theorem nodup_erase {fields : Fields α} (h : (names fields).Nodup) (key : String) :
    (names (erase fields key)).Nodup := by
  rw [names_erase]
  exact h.erase key

theorem get?_erase_self {fields : Fields α} (h : (names fields).Nodup) (key : String) :
    get? (erase fields key) key = none := by
  apply get?_eq_none
  rw [names_erase]
  exact h.not_mem_erase

theorem get?_erase_of_ne (fields : Fields α) {key other : String} (hother : other ≠ key) :
    get? (erase fields key) other = get? fields other := by
  induction fields with
  | nil => rfl
  | cons field rest ih =>
      obtain ⟨name, value⟩ := field
      by_cases hname : name = key
      · subst hname
        simp [erase, get?, Ne.symm hother]
      · simp only [erase, get?, hname, if_false, ih]

theorem put_of_not_mem {fields : Fields α} {key : String} (h : key ∉ names fields) (value : α) :
    put fields key value = fields ++ [(key, value)] := by
  induction fields with
  | nil => rfl
  | cons field rest ih =>
      obtain ⟨name, old⟩ := field
      have hname : name ≠ key := fun hsame => h (hsame ▸ List.mem_cons_self)
      rw [put, if_neg hname, ih fun hrest => h (.tail _ hrest)]
      rfl

theorem put_self {fields : Fields α} {key : String} {value : α}
    (h : get? fields key = some value) : put fields key value = fields := by
  induction fields with
  | nil => cases h
  | cons field rest ih =>
      obtain ⟨name, first⟩ := field
      by_cases hname : name = key
      · obtain rfl : first = value := by simpa [get?, hname] using h
        rw [put, if_pos hname]
      · rw [put, if_neg hname, ih (by simpa [get?, hname] using h)]

/-- Maps with the same names in the same order and the same value under every
name are one. -/
theorem ext_of_get? {fields others : Fields α} (hnames : names fields = names others)
    (hnodup : (names fields).Nodup) (h : ∀ key, get? fields key = get? others key) :
    fields = others := by
  induction fields generalizing others with
  | nil => exact (List.map_eq_nil_iff.mp hnames.symm).symm
  | cons field rest ih =>
      obtain ⟨name, value⟩ := field
      obtain ⟨⟨name', value'⟩, rest', rfl, rfl, hrestNames⟩ := List.map_eq_cons_iff.mp hnames.symm
      obtain ⟨hfresh, hrestNodup⟩ := List.nodup_cons.mp hnodup
      obtain rfl : value = value' := by simpa [get?] using h name'
      have hrest : ∀ key, get? rest key = get? rest' key := by
        intro key
        by_cases hkey : name' = key
        · subst hkey
          rw [get?_eq_none hfresh, get?_eq_none fun hmem => hfresh (hrestNames ▸ hmem)]
        · simpa [get?, hkey] using h key
      rw [ih hrestNames.symm hrestNodup hrest]

theorem extend_cons (fields : Fields α) (key : String) (value : α) (rest : Fields α) :
    extend fields ((key, value) :: rest) = extend (put fields key value) rest := rfl

theorem nodup_extend {fields : Fields α} (h : (names fields).Nodup) (more : Fields α) :
    (names (extend fields more)).Nodup := by
  induction more generalizing fields with
  | nil => exact h
  | cons field rest ih => exact ih (nodup_put h _ _)

theorem extend_of_nodup {fields more : Fields α} (h : (names (fields ++ more)).Nodup) :
    extend fields more = fields ++ more := by
  induction more generalizing fields with
  | nil => exact (List.append_nil fields).symm
  | cons field rest ih =>
      obtain ⟨key, value⟩ := field
      have hkey : key ∉ names fields := by
        intro hmem
        rw [names, List.map_append, List.nodup_append] at h
        exact h.2.2 key hmem key List.mem_cons_self rfl
      have hrest := @ih (fields ++ [(key, value)]) (by simpa using h)
      rw [extend_cons, put_of_not_mem hkey, hrest, List.append_assoc]
      rfl

/-- Pairs with distinct names are a map already. -/
theorem ofList_of_nodup {pairs : List (String × α)} (h : (names pairs).Nodup) :
    ofList pairs = pairs :=
  extend_of_nodup h

theorem get?_extend_of_not_mem {fields more : Fields α} {key : String} (h : key ∉ names more) :
    get? (extend fields more) key = get? fields key := by
  induction more generalizing fields with
  | nil => rfl
  | cons field rest ih =>
      obtain ⟨name, value⟩ := field
      have hname : name ≠ key := fun hsame => h (hsame ▸ List.mem_cons_self)
      rw [extend_cons, ih fun hrest => h (.tail _ hrest), get?_put, if_neg hname]

/-- A value of the second map is what its key has afterwards. -/
theorem get?_extend {fields more : Fields α} {key : String} {value : α}
    (hnames : (names more).Nodup) (h : get? more key = some value) :
    get? (extend fields more) key = some value := by
  induction more generalizing fields with
  | nil => cases h
  | cons field rest ih =>
      obtain ⟨name, first⟩ := field
      obtain ⟨hname, hrest⟩ := List.nodup_cons.mp hnames
      rw [extend_cons]
      by_cases hkey : name = key
      · subst hkey
        obtain rfl : first = value := by simpa [get?] using h
        rw [get?_extend_of_not_mem hname, get?_put, if_pos rfl]
      · exact ih hrest (by simpa [get?, hkey] using h)

theorem exists_get? {fields : Fields α} {key : String} (h : key ∈ names fields) :
    ∃ value, get? fields key = some value := by
  induction fields with
  | nil => cases h
  | cons field rest ih =>
      obtain ⟨name, value⟩ := field
      by_cases hname : name = key
      · exact ⟨value, if_pos hname⟩
      · have hrest : key ∈ names rest := (List.mem_cons.mp h).resolve_left (Ne.symm hname)
        obtain ⟨found, hfound⟩ := ih hrest
        exact ⟨found, (if_neg hname).trans hfound⟩

/-- What the second map does not have is there afterwards if it was before. -/
theorem get?_extend_of_none {fields more : Fields α} {key : String} (h : get? more key = none) :
    get? (extend fields more) key = get? fields key := by
  apply get?_extend_of_not_mem
  intro hmem
  obtain ⟨value, hvalue⟩ := exists_get? hmem
  cases hvalue.symm.trans h

/-- Names that are told apart can be renamed. -/
theorem get?_map {rename : String → String} (hrename : Function.Injective rename)
    (fields : Fields α) (key : String) :
    get? (fields.map (Prod.map rename id)) (rename key) = get? fields key := by
  induction fields with
  | nil => rfl
  | cons field rest ih =>
      obtain ⟨name, value⟩ := field
      by_cases hname : name = key
      · simp [get?, hname]
      · simp [get?, hname, hrename.ne hname, ih]

theorem names_map (rename : String → String) (fields : Fields α) :
    names (fields.map (Prod.map rename id)) = (names fields).map rename := by
  simp [names, Function.comp_def]

theorem mem_names_extend {fields more : Fields α} {key : String}
    (h : key ∈ names (extend fields more)) : key ∈ names fields ∨ key ∈ names more := by
  induction more generalizing fields with
  | nil => exact Or.inl h
  | cons field rest ih =>
      obtain ⟨name, value⟩ := field
      rcases ih h with hput | hrest
      · rw [names_put] at hput
        split at hput
        next => exact Or.inl hput
        next =>
          rcases List.mem_append.mp hput with hfields | hname
          · exact Or.inl hfields
          · exact Or.inr (List.mem_singleton.mp hname ▸ List.mem_cons_self)
      · exact Or.inr (List.mem_cons_of_mem _ hrest)

theorem mem_names_ofList {pairs : List (String × α)} {key : String}
    (h : key ∈ names (ofList pairs)) : key ∈ names pairs :=
  (mem_names_extend h).resolve_left (by simp [names])

end FieldQuery.Fields
