import FieldQuery.Api
import FieldQuery.Proofs.Fields

/-!
Members of an answer. The results of the calls of one level are merged one by
one under the keys of the calls. So the members stand under these keys, each
where it first appears; and without a repeated key each is the result itself.
-/

namespace FieldQuery

/-- Keys under which the calls of a selection are answered, each where it
first stands. -/
def Selection.keys (s : Selection) : List String := (s.map Call.key).eraseDups

variable {policy : MergePolicy} {members : Fields Json}

/-- Whatever is merged into, an entry adds its key if it is new. -/
theorem names_mergeEntry (policy : MergePolicy) (members : Fields Json) (key : String) (v : Json) :
    Fields.names (mergeEntry policy members key v) =
      if key ∈ Fields.names members then Fields.names members
      else Fields.names members ++ [key] := by
  unfold mergeEntry
  split <;> exact Fields.names_put _ _ _

theorem get?_mergeEntry_of_ne {key other : String} (hother : key ≠ other) (v : Json) :
    Fields.get? (mergeEntry policy members key v) other = Fields.get? members other := by
  unfold mergeEntry
  split <;> rw [Fields.get?_put, if_neg hother]

theorem get?_mergeEntry_self {key : String} (hkey : key ∉ Fields.names members) (v : Json) :
    Fields.get? (mergeEntry policy members key v) key = some v := by
  simp [mergeEntry, Fields.get?_eq_none hkey, Fields.get?_put]

theorem mergeEntry_of_not_mem {key : String} (hkey : key ∉ Fields.names members) (v : Json) :
    mergeEntry policy members key v = members ++ [(key, v)] := by
  rw [mergeEntry, Fields.get?_eq_none hkey]
  exact Fields.put_of_not_mem hkey v

/-- Members with the results of calls merged into them. -/
def mergeAnswers (policy : MergePolicy) (members : Fields Json) (answers : List (Call × Json)) :
    Fields Json :=
  answers.foldl (fun members answer => mergeEntry policy members answer.1.key answer.2) members

/-- What follows of a list of keys after some are there already. -/
theorem removeAll_append_singleton (keys present : List String) (key : String) :
    keys.removeAll (present ++ [key]) =
      (keys.removeAll present).filter fun other => !other == key := by
  rw [List.removeAll, List.removeAll, List.filter_filter]
  apply List.filter_congr
  intro other _
  cases hother : other == key <;> simp_all

theorem names_mergeAnswers (members : Fields Json) (answers : List (Call × Json)) :
    Fields.names (mergeAnswers policy members answers) = Fields.names members ++
      ((answers.map fun answer => answer.1.key).removeAll (Fields.names members)).eraseDups := by
  induction answers generalizing members with
  | nil => exact (List.append_nil _).symm
  | cons answer rest ih =>
      refine (ih _).trans ?_
      rw [names_mergeEntry, List.map_cons, List.cons_removeAll]
      by_cases hkey : answer.1.key ∈ Fields.names members
      · rw [if_pos hkey, if_neg (by simpa using hkey)]
      · rw [if_neg hkey, if_pos (by simpa using hkey), removeAll_append_singleton,
          List.eraseDups_cons, List.append_assoc]
        rfl

theorem get?_mergeAnswers_of_not_mem {answers : List (Call × Json)} {key : String}
    (hkey : key ∉ answers.map fun answer => answer.1.key) :
    Fields.get? (mergeAnswers policy members answers) key = Fields.get? members key := by
  induction answers generalizing members with
  | nil => rfl
  | cons answer rest ih =>
      rw [List.map_cons, List.mem_cons, not_or] at hkey
      exact (ih hkey.2).trans (get?_mergeEntry_of_ne (Ne.symm hkey.1) _)

/-- The result of a call stays what it is, unless another call has its key. -/
theorem get?_mergeAnswers {answers : List (Call × Json)}
    (hdistinct : (answers.map fun answer => answer.1.key).Nodup)
    (hfresh : ∀ answer ∈ answers, answer.1.key ∉ Fields.names members) :
    ∀ answer ∈ answers,
      Fields.get? (mergeAnswers policy members answers) answer.1.key = some answer.2 := by
  induction answers generalizing members with
  | nil => exact fun _ hnone => absurd hnone List.not_mem_nil
  | cons answer rest ih =>
      rw [List.map_cons, List.nodup_cons] at hdistinct
      obtain ⟨hanswer, hrest⟩ := List.forall_mem_cons.mp hfresh
      have hlater : ∀ other ∈ rest,
          other.1.key ∉ Fields.names (mergeEntry policy members answer.1.key answer.2) := by
        intro other hother
        have hne : other.1.key ≠ answer.1.key := fun hsame =>
          hdistinct.1 (hsame ▸ List.mem_map_of_mem hother)
        rw [names_mergeEntry, if_neg hanswer, List.mem_append, List.mem_singleton, not_or]
        exact ⟨hrest other hother, hne⟩
      refine List.forall_mem_cons.mpr ⟨?_, ih hdistinct.2 hlater⟩
      exact (get?_mergeAnswers_of_not_mem hdistinct.1).trans (get?_mergeEntry_self hanswer _)

/-- The keys of an answer are those of its selection. -/
theorem names_mergeAnswers_nil {s : Selection} {answers : List (Call × Json)}
    (hcalls : answers.map Prod.fst = s) :
    Fields.names (mergeAnswers policy [] answers) = s.keys := by
  subst hcalls
  rw [names_mergeAnswers, Selection.keys, List.map_map]
  simp [Fields.names, Function.comp_def]

end FieldQuery
