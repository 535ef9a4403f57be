import Mathlib.Data.List.Induction
import FieldQuery.Json.Merge
import FieldQuery.Proofs.Json.Equality

/-!
The union of arrays. Items are taken one after the other, and an item is kept
unless an equal one was kept before. The laws here are by induction on the
items from their end, where the last step of the union is.
-/

namespace FieldQuery.Json

variable {present items : List Json}

/-- The items that no earlier item equals, in order. -/
def firstAppearances (items : List Json) : List Json :=
  (items.zipIdx.filter fun entry => !(items.take entry.2).any (·.same entry.1)).map Prod.fst

/-- No two items are equal. -/
def Apart (items : List Json) : Prop := items.Pairwise fun v w => v.same w = false

theorem unionItems_append (present items others : List Json) :
    unionItems present (items ++ others) = unionItems (unionItems present items) others := by
  induction items generalizing present with
  | nil => rfl
  | cons v rest ih => exact ih _

theorem unionItems_concat (present items : List Json) (v : Json) :
    unionItems present (items ++ [v]) =
      if (unionItems present items).any (·.same v) then unionItems present items
      else unionItems present items ++ [v] := by
  rw [unionItems_append]
  rfl

theorem mem_unionItems {v : Json} (h : v ∈ unionItems present items) : v ∈ present ∨ v ∈ items := by
  induction items using List.reverseRecOn with
  | nil => exact Or.inl h
  | append_singleton items last ih =>
      rw [unionItems_concat] at h
      split at h
      next => exact (ih h).imp_right (List.mem_append_left _)
      next =>
        rcases List.mem_append.mp h with hbefore | hlast
        · exact (ih hbefore).imp_right (List.mem_append_left _)
        · exact Or.inr (List.mem_append_right _ hlast)

theorem mem_of_mem_unionItems_nil {v : Json} (h : v ∈ unionItems [] items) : v ∈ items :=
  (mem_unionItems h).resolve_left List.not_mem_nil

theorem unionItems_subset_concat {v u : Json} (h : u ∈ unionItems present items) :
    u ∈ unionItems present (items ++ [v]) := by
  rw [unionItems_concat]
  split
  next => exact h
  next => exact List.mem_append_left _ h

/-- Every item is there afterwards, or one that equals it. -/
theorem exists_same_unionItems (hitems : ∀ v ∈ items, v.Distinct) :
    ∀ v ∈ items, ∃ u ∈ unionItems present items, u.same v = true := by
  induction items using List.reverseRecOn with
  | nil => simp
  | append_singleton items last ih =>
      obtain ⟨hbefore, hlast⟩ := List.forall_mem_append.mp hitems
      intro v hv
      rcases List.mem_append.mp hv with hv | hv
      · obtain ⟨u, hu, huv⟩ := ih hbefore v hv
        exact ⟨u, unionItems_subset_concat hu, huv⟩
      · obtain rfl := List.mem_singleton.mp hv
        rw [unionItems_concat]
        split
        next hany => exact List.any_eq_true.mp hany
        next => exact ⟨v, by simp, same_self (hlast v (by simp))⟩

/-- What equals an item already there is not added. -/
theorem unionItems_of_covered (h : ∀ v ∈ items, ∃ u ∈ present, u.same v = true) :
    unionItems present items = present := by
  induction items with
  | nil => rfl
  | cons v rest ih =>
      obtain ⟨hv, hrest⟩ := List.forall_mem_cons.mp h
      rw [unionItems, if_pos (List.any_eq_true.mpr hv), ih hrest]

theorem apart_unionItems (h : Apart present) : Apart (unionItems present items) := by
  induction items using List.reverseRecOn with
  | nil => exact h
  | append_singleton items last ih =>
      rw [unionItems_concat]
      split
      next => exact ih
      next hnew =>
        simp only [List.any_eq_true, not_exists, not_and, Bool.not_eq_true] at hnew
        refine List.pairwise_append.mpr ⟨ih, List.pairwise_singleton _ _, fun u hu v hv => ?_⟩
        rw [List.mem_singleton.mp hv]
        exact hnew u hu

/-- Items of which no two are equal are a union already. -/
theorem unionItems_of_apart (h : Apart (present ++ items)) :
    unionItems present items = present ++ items := by
  induction items generalizing present with
  | nil => exact (List.append_nil present).symm
  | cons v rest ih =>
      have hnew : ¬present.any (·.same v) = true := by
        have hpresent := (List.pairwise_append.mp h).2.2
        simp only [List.any_eq_true, not_exists, not_and, Bool.not_eq_true]
        exact fun u hu => hpresent u hu v List.mem_cons_self
      rw [unionItems, if_neg hnew, ih (by simpa using h), List.append_assoc]
      rfl

/-- What equals one of the items equals something that is there after them. -/
theorem covered_of_same {u v : Json} (hitems : ∀ v ∈ items, v.Distinct)
    (hpresent : ∀ v ∈ present, v.Distinct) (hu : u ∈ items) (huv : u.same v = true) :
    (unionItems present items).any (·.same v) = true := by
  obtain ⟨w, hw, hwu⟩ := exists_same_unionItems hitems u hu
  have hdistinct : w.Distinct := (mem_unionItems hw).elim (hpresent w) (hitems w)
  exact List.any_eq_true.mpr ⟨w, hw, same_trans hdistinct hwu huv⟩

/-- Leaving out repetitions first changes nothing. -/
theorem unionItems_unionItems (hpresent : ∀ v ∈ present, v.Distinct)
    (hitems : ∀ v ∈ items, v.Distinct) :
    unionItems present (unionItems [] items) = unionItems present items := by
  induction items using List.reverseRecOn with
  | nil => rfl
  | append_singleton items last ih =>
      obtain ⟨hbefore, -⟩ := List.forall_mem_append.mp hitems
      rw [unionItems_concat [], unionItems_concat present]
      split
      next hany =>
        -- The last item was left out for `u`, which the items before it cover as well.
        obtain ⟨u, hu, hsame⟩ := List.any_eq_true.mp hany
        have hmem : u ∈ items := mem_of_mem_unionItems_nil hu
        rw [if_pos (covered_of_same hbefore hpresent hmem hsame), ih hbefore]
      next => rw [unionItems_concat present, ih hbefore]

theorem any_same_unionItems (hitems : ∀ v ∈ items, v.Distinct) (v : Json) :
    (unionItems [] items).any (·.same v) = items.any (·.same v) := by
  rw [Bool.eq_iff_iff, List.any_eq_true, List.any_eq_true]
  constructor
  · rintro ⟨u, hu, hsame⟩
    exact ⟨u, mem_of_mem_unionItems_nil hu, hsame⟩
  · rintro ⟨u, hu, hsame⟩
    exact List.any_eq_true.mp (covered_of_same hitems (by simp) hu hsame)

theorem firstAppearances_concat (items : List Json) (v : Json) :
    firstAppearances (items ++ [v]) =
      if items.any (·.same v) then firstAppearances items else firstAppearances items ++ [v] := by
  have hbefore : (items.zipIdx.filter fun entry =>
      !((items ++ [v]).take entry.2).any (·.same entry.1)) =
        items.zipIdx.filter fun entry => !(items.take entry.2).any (·.same entry.1) := by
    refine List.filter_congr fun entry hentry => ?_
    have hplace : entry.2 < items.length := by
      simpa using List.snd_lt_of_mem_zipIdx hentry
    rw [List.take_append_of_le_length (Nat.le_of_lt hplace)]
  rw [firstAppearances, List.zipIdx_append, List.filter_append, hbefore, List.map_append]
  by_cases hany : items.any (·.same v) = true
  · simp [hany, firstAppearances]
  · simp [hany, firstAppearances]

theorem unionItems_eq_firstAppearances (hitems : ∀ v ∈ items, v.Distinct) :
    unionItems [] items = firstAppearances items := by
  induction items using List.reverseRecOn with
  | nil => rfl
  | append_singleton items last ih =>
      obtain ⟨hbefore, -⟩ := List.forall_mem_append.mp hitems
      rw [unionItems_concat, firstAppearances_concat, any_same_unionItems hbefore, ih hbefore]

/-- Items that were united before add nothing. -/
theorem unionItems_again (items : List Json) {others : List Json}
    (hothers : ∀ v ∈ others, v.Distinct) :
    unionItems [] (unionItems [] (items ++ others) ++ others) =
      unionItems [] (items ++ others) := by
  have hkept : unionItems [] (unionItems [] (items ++ others)) = unionItems [] (items ++ others) :=
    unionItems_of_apart (apart_unionItems .nil)
  rw [unionItems_append, hkept]
  apply unionItems_of_covered
  rw [unionItems_append]
  exact exists_same_unionItems hothers

/-- Items of both sides are the same whether the union is taken left or right first. -/
theorem unionItems_assoc {first second third : List Json} (hfirst : ∀ v ∈ first, v.Distinct)
    (hsecond : ∀ v ∈ second, v.Distinct) (hthird : ∀ v ∈ third, v.Distinct) :
    unionItems [] (unionItems [] (first ++ second) ++ third) =
      unionItems [] (first ++ unionItems [] (second ++ third)) := by
  have hleft : ∀ v ∈ unionItems [] first, v.Distinct := fun v hv =>
    hfirst v (mem_of_mem_unionItems_nil hv)
  have hbefore := List.forall_mem_append.mpr ⟨hfirst, hsecond⟩
  have hafter := List.forall_mem_append.mpr ⟨hsecond, hthird⟩
  calc unionItems [] (unionItems [] (first ++ second) ++ third)
      = unionItems (unionItems [] (first ++ second)) third := by
        rw [unionItems_append, unionItems_unionItems (by simp) hbefore]
    _ = unionItems (unionItems [] first) (second ++ third) := by
        rw [← unionItems_append, List.append_assoc, unionItems_append]
    _ = unionItems [] (first ++ unionItems [] (second ++ third)) := by
        rw [unionItems_append [] first, unionItems_unionItems hleft hafter]

end FieldQuery.Json
