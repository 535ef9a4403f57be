import FieldQuery.Proofs.Json.Distinct
import FieldQuery.Proofs.Selection.Merge
import FieldQuery.Proofs.Selection.Numbers

/-!
Equality of documents, which is reflexive and transitive on documents in which
no object repeats a key.
-/

namespace FieldQuery.Json

theorem sameMembers_iff {members others : Fields Json} :
    sameMembers members others = true ↔
      ∀ member ∈ members, ∃ w, Fields.get? others member.1 = some w ∧ member.2.same w = true := by
  induction members with
  | nil => simp [sameMembers]
  | cons member rest ih =>
      obtain ⟨key, v⟩ := member
      simp only [sameMembers, Bool.and_eq_true, ih, List.forall_mem_cons]
      refine and_congr_left fun _ => ?_
      cases Fields.get? others key <;> simp

theorem sameItems_self {items : List Json} (h : ∀ v ∈ items, v.same v = true) :
    sameItems items items = true := by
  induction items with
  | nil => rfl
  | cons v rest ih =>
      obtain ⟨hv, hrest⟩ := List.forall_mem_cons.mp h
      rw [sameItems, hv, ih hrest]
      rfl

/-- A document has no number that differs from itself. -/
theorem same_self {v : Json} (h : v.Distinct) : v.same v = true := by
  induction h with
  | null => rfl
  | bool b => exact beq_self_eq_true b
  | number n =>
      cases n with
      | int n => exact beq_self_eq_true n.val
      | float x => exact Double.same_self (by rw [Double.isNaN, x.finite]; rfl)
  | string s => exact beq_self_eq_true s
  | array _ ih => exact sameItems_self ih
  | object hnames _ ih =>
      rw [same, beq_self_eq_true, Bool.true_and, sameMembers_iff]
      exact fun member hmember => ⟨_, Fields.get?_of_mem hnames hmember, ih member hmember⟩

theorem sameItems_trans {items others more : List Json}
    (h : ∀ u ∈ items, ∀ v w : Json, u.same v = true → v.same w = true → u.same w = true)
    (hothers : sameItems items others = true) (hmore : sameItems others more = true) :
    sameItems items more = true := by
  induction items generalizing others more with
  | nil =>
      cases others with
      | nil => exact hmore
      | cons _ _ => simp [sameItems] at hothers
  | cons u items ih =>
      cases others with
      | nil => simp [sameItems] at hothers
      | cons v others =>
          cases more with
          | nil => simp [sameItems] at hmore
          | cons w more =>
              simp only [sameItems, Bool.and_eq_true] at hothers hmore ⊢
              obtain ⟨hu, hitems⟩ := List.forall_mem_cons.mp h
              exact ⟨hu v w hothers.1 hmore.1, ih hitems hothers.2 hmore.2⟩

theorem same_trans {u v w : Json} (hu : u.Distinct) (huv : u.same v = true)
    (hvw : v.same w = true) : u.same w = true := by
  induction hu generalizing v w with
  | null => cases v <;> cases w <;> simp_all [same]
  | bool b => cases v <;> cases w <;> simp_all [same]
  | number n =>
      cases v <;> cases w <;> simp only [same, Bool.false_eq_true] at huv hvw ⊢
      next m k =>
        cases n <;> cases m <;> cases k <;>
          simp only [JsonNumber.same, Bool.false_eq_true, beq_iff_eq] at huv hvw ⊢
        · exact huv.trans hvw
        · exact Double.same_trans huv hvw
  | string s => cases v <;> cases w <;> simp_all [same]
  | array _ ih =>
      cases v <;> cases w <;> simp only [same, Bool.false_eq_true] at huv hvw ⊢
      exact sameItems_trans (fun u hu v w => ih u hu) huv hvw
  | object _ _ ih =>
      cases v <;> cases w <;>
        simp only [same, Bool.false_eq_true, Bool.and_eq_true, beq_iff_eq, sameMembers_iff]
          at huv hvw ⊢
      refine ⟨huv.1.trans hvw.1, fun member hmember => ?_⟩
      obtain ⟨v, hv, hmember'⟩ := huv.2 member hmember
      obtain ⟨w, hw, hvw'⟩ := hvw.2 _ (Fields.mem_of_get? hv)
      exact ⟨w, hw, ih member hmember hmember' hvw'⟩

end FieldQuery.Json
