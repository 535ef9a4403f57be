import FieldQuery.Proofs.Fingerprint.Hash

/-!
Keys made of a prefix and a fingerprint. Different prefixes have a key in common
just if one is the other with the beginning of a fingerprint behind it: what is
left of the fingerprint has to be a fingerprint as well.
-/

namespace FieldQuery

/-- A part of a number that its last digits are cut off from is a number. -/
theorem exists_toDigits_of_append {n : Nat} {text rest : List Char}
    (h : Nat.toDigits 10 n = text ++ rest) (htext : text ≠ []) (hrest : rest ≠ []) :
    ∃ k, text = Nat.toDigits 10 k ∧ 0 < k ∧ 10 * k ≤ n := by
  -- Digits are taken off the end until only the part is left.
  induction n using Nat.strongRecOn generalizing rest with
  | ind n ih =>
      obtain ⟨before, last, rfl⟩ := (List.eq_nil_or_concat' rest).resolve_left hrest
      have hbase : 10 ≤ n := by
        by_contra hsmall
        have hlength := congrArg List.length h
        have := List.length_pos_iff.mpr htext
        rw [Nat.toDigits_of_lt_base (by omega)] at hlength
        simp at hlength
        omega
      rw [Nat.toDigits_of_base_le (by decide) hbase, ← List.append_assoc] at h
      obtain ⟨hinit, -⟩ := List.append_inj' h rfl
      by_cases hbefore : before = []
      · subst hbefore
        exact ⟨n / 10, by simpa using hinit.symm, by omega, by omega⟩
      · obtain ⟨k, hk, hpositive, hbound⟩ := ih (n / 10) (by omega) hinit hbefore
        exact ⟨k, hk, hpositive, by omega⟩

theorem toDigits_ten_mul {k : Nat} (h : 0 < k) :
    Nat.toDigits 10 (10 * k) = Nat.toDigits 10 k ++ ['0'] := by
  rw [Nat.toDigits_of_base_le (by decide) (by omega)]
  simp [Nat.digitChar]

theorem toList_toString_neg (k : Nat) (h : 0 < k) :
    (toString (-(k : Int))).toList = '-' :: Nat.toDigits 10 k := by
  rw [Json.toList_toString_int]
  simp [h]

theorem toList_toString_nat (k : Nat) :
    (toString (k : Int)).toList = Nat.toDigits 10 k := by
  rw [Json.toList_toString_int]
  simp

namespace Fingerprint

/-- What a fingerprint may begin with so that the rest is a fingerprint: a
minus, or a number that leaves room for another digit. -/
def IsBeginning (text : String) : Prop :=
  text = "-" ∨ ∃ n : Int, n ≠ 0 ∧ n.natAbs ≤ 214748364 ∧ text = toString n

/-- The second prefix is the first one and the beginning of a fingerprint. -/
def Extends (p q : String) : Prop := ∃ more, IsBeginning more ∧ q = p ++ more

theorem natAbs_hash_le (text : String) : (hash text).toInt.natAbs ≤ 2 ^ 31 := by
  have hupper := Int32.toInt_lt (hash text)
  have hlower := Int32.le_toInt (hash text)
  omega

theorem isBeginning_of_append {n m : Int} {more : List Char} (hn : n.natAbs ≤ 2 ^ 31)
    (h : (toString n).toList = more ++ (toString m).toList) (hmore : more ≠ []) :
    IsBeginning (String.ofList more) := by
  have hrest : (toString m).toList ≠ [] := by
    rw [Json.toList_toString_int]
    exact List.append_ne_nil_of_right_ne_nil _ (digits_toDigits m.natAbs).ne_nil
  rw [Json.toList_toString_int] at h
  by_cases hnegative : n < 0
  · obtain ⟨first, digits, rfl⟩ := List.exists_cons_of_ne_nil hmore
    rw [decide_eq_true hnegative] at h
    obtain ⟨rfl, hcut⟩ := List.cons.inj h
    by_cases hdigits : digits = []
    · subst hdigits
      exact Or.inl rfl
    · obtain ⟨k, rfl, hpositive, hbound⟩ := exists_toDigits_of_append hcut hdigits hrest
      refine Or.inr ⟨-(k : Int), by omega, by omega, ?_⟩
      rw [← toList_toString_neg k hpositive, String.ofList_toList]
  · rw [decide_eq_false hnegative] at h
    obtain ⟨k, rfl, hpositive, hbound⟩ := exists_toDigits_of_append h hmore hrest
    refine Or.inr ⟨(k : Int), by omega, by omega, ?_⟩
    rw [← toList_toString_nat, String.ofList_toList]

theorem extends_of_append {p q : String} {n m : Int} (hn : n.natAbs ≤ 2 ^ 31) {more : List Char}
    (hmore : q.toList = p.toList ++ more) (h : (toString n).toList = more ++ (toString m).toList)
    (hne : p ≠ q) : Extends p q := by
  have hnil : more ≠ [] := by
    rintro rfl
    rw [List.append_nil, String.toList_inj] at hmore
    exact hne hmore.symm
  refine ⟨String.ofList more, isBeginning_of_append hn h hnil, ?_⟩
  rw [← String.toList_inj, String.toList_append, String.toList_ofList, hmore]

theorem exists_fingerprint_eq {n : Int} (h : -2 ^ 31 ≤ n) (h' : n < 2 ^ 31) :
    ∃ text, fingerprint text = toString n := by
  obtain ⟨text, htext⟩ := exists_hash_eq (Int32.ofInt n)
  refine ⟨text, ?_⟩
  rw [fingerprint, htext, Int32.toInt_ofInt_of_le h h']

theorem IsBeginning.exists_append {more : String} (h : IsBeginning more) :
    ∃ a b, fingerprint a = more ++ fingerprint b := by
  rcases h with rfl | ⟨n, hzero, hn, rfl⟩
  · obtain ⟨a, ha⟩ := exists_fingerprint_eq (n := -1) (by decide) (by decide)
    obtain ⟨b, hb⟩ := exists_fingerprint_eq (n := 1) (by decide) (by decide)
    exact ⟨a, b, by rw [ha, hb]; rfl⟩
  · obtain ⟨a, ha⟩ := exists_fingerprint_eq (n := 10 * n) (by omega) (by omega)
    obtain ⟨b, hb⟩ := exists_fingerprint_eq (n := 0) (by decide) (by decide)
    refine ⟨a, b, ?_⟩
    have hdigits : Nat.toDigits 10 (10 * n).natAbs = Nat.toDigits 10 n.natAbs ++ ['0'] := by
      rw [Int.natAbs_mul]
      exact toDigits_ten_mul (by omega)
    have hsign : (10 * n < 0) = (n < 0) := propext (by omega)
    rw [ha, hb, ← String.toList_inj, String.toList_append, Json.toList_toString_int,
      Json.toList_toString_int, hdigits, List.append_assoc]
    simp only [hsign]
    rfl

theorem Extends.exists_same_key {p q : String} (h : Extends p q) :
    ∃ a b, p ++ fingerprint a = q ++ fingerprint b := by
  obtain ⟨more, hmore, rfl⟩ := h
  obtain ⟨a, b, hab⟩ := hmore.exists_append
  exact ⟨a, b, by rw [hab, String.append_assoc]⟩

/-- Different prefixes lead to a common key just if one extends the other. -/
theorem exists_same_key_iff {p q : String} (hne : p ≠ q) :
    (∃ a b, p ++ fingerprint a = q ++ fingerprint b) ↔ Extends p q ∨ Extends q p := by
  constructor
  · rintro ⟨a, b, hab⟩
    have hlists : p.toList ++ (fingerprint a).toList = q.toList ++ (fingerprint b).toList := by
      rw [← String.toList_append, ← String.toList_append, hab]
    rcases List.append_eq_append_iff.mp hlists with ⟨more, hmore, h⟩ | ⟨more, hmore, h⟩
    · exact Or.inl (extends_of_append (natAbs_hash_le a) hmore h hne)
    · exact Or.inr (extends_of_append (natAbs_hash_le b) hmore h hne.symm)
  · rintro (h | h)
    · exact h.exists_same_key
    · obtain ⟨a, b, hab⟩ := h.exists_same_key
      exact ⟨b, a, hab.symm⟩

end Fingerprint

end FieldQuery
