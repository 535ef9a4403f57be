import FieldQuery.Proofs.Number.Integers

/-!
Correct rounding. The number that a quotient is rounded to covers it, and no
finite number is nearer to what a number covers. So rounding gives the nearest
number, and of two that are equally near the one with the even significand.
-/

namespace FieldQuery.Double

/-- The rational that a finite number is, without its sign. -/
def absolute (x : Double) : ℚ := x.significand * 2 ^ x.scale

/-- The rational that a finite number is. -/
def toRat (x : Double) : ℚ := if x.isNegative then -x.absolute else x.absolute

/-- No finite number is nearer to the rational. Another one may be as near only
if the significand is even. -/
structure IsNearest (x : Double) (q : ℚ) : Prop where
  isFinite : x.isFinite = true
  le : ∀ y : Double, y.isFinite = true → |x.toRat - q| ≤ |y.toRat - q|
  even : ∀ y : Double, y.isFinite = true → y.toRat ≠ x.toRat → |y.toRat - q| = |x.toRat - q| →
    x.significand % 2 = 0

theorem absolute_nonneg (x : Double) : 0 ≤ x.absolute := by
  unfold absolute
  positivity

/-! Distances between numbers. -/

/-- Other numbers are farther away than one last place, or half of it on the
side below a power of two. -/
theorem absolute_spaced (x y : Double) :
    y.absolute = x.absolute ∨ x.absolute + 2 ^ x.scale ≤ y.absolute ∨
      y.absolute ≤ x.absolute - 2 ^ x.scale ∨
      (x.significand = hiddenBit ∧ -1074 < x.scale ∧
        y.absolute ≤ x.absolute - 2 ^ x.scale / 2) := by
  have hx := x.significand_lt
  have hy := y.significand_lt
  unfold absolute
  rcases lt_or_ge y.scale x.scale with h | h
  · -- The other number has finer places, but is too small to come between.
    have hleading := significand_ge (y.scale_ge.trans_lt h)
    obtain ⟨k, hk⟩ := Int.le.dest (Int.add_one_le_of_lt h)
    have hpos : (0 : ℚ) < 2 ^ y.scale := by positivity
    have hplace : (2 : ℚ) ^ x.scale = (2 * 2 ^ k : Nat) * 2 ^ y.scale := by
      rw [← hk, zpow_add₀ two_ne_zero, zpow_add_one₀ two_ne_zero, zpow_natCast]
      push_cast
      ring
    have hone : 1 ≤ 2 ^ k := Nat.one_le_two_pow
    refine Or.inr (Or.inr ?_)
    rw [hplace]
    rcases hleading.lt_or_eq with hlt | heq
    · have hstep : y.significand + 2 * 2 ^ k ≤ x.significand * (2 * 2 ^ k) := by nlinarith
      have hcast : (y.significand : ℚ) + (2 * 2 ^ k : Nat) ≤ x.significand * (2 * 2 ^ k : Nat) := by
        exact_mod_cast hstep
      exact Or.inl (by nlinarith)
    · have hstep : y.significand + 2 ^ k ≤ x.significand * (2 * 2 ^ k) := by
        rw [← heq]
        nlinarith
      have hcast : (y.significand : ℚ) + 2 ^ k ≤ x.significand * (2 * 2 ^ k : Nat) := by
        exact_mod_cast hstep
      refine Or.inr ⟨heq.symm, y.scale_ge.trans_lt h, ?_⟩
      push_cast at hcast ⊢
      nlinarith
  · -- The other number is a multiple of the last place of this one.
    obtain ⟨k, hk⟩ := Int.le.dest h
    have hpos : (0 : ℚ) < 2 ^ x.scale := by positivity
    have hmultiple : (y.significand * 2 ^ y.scale : ℚ) =
        (y.significand * 2 ^ k : Nat) * 2 ^ x.scale := by
      rw [← hk, zpow_add₀ two_ne_zero, zpow_natCast]
      push_cast
      ring
    rw [hmultiple]
    rcases Nat.lt_trichotomy (y.significand * 2 ^ k) x.significand with hlt | heq | hgt
    · refine Or.inr (Or.inr (Or.inl ?_))
      have hstep : ((y.significand * 2 ^ k : Nat) : ℚ) + 1 ≤ x.significand := by exact_mod_cast hlt
      nlinarith
    · exact Or.inl (by rw [heq])
    · refine Or.inr (Or.inl ?_)
      have hstep : (x.significand : ℚ) + 1 ≤ (y.significand * 2 ^ k : Nat) := by exact_mod_cast hgt
      nlinarith

/-- No number is nearer to a rational than the one that covers it. -/
theorem Covers.absolute_nearest {x : Double} {q : ℚ} (h : x.Covers q) (y : Double) :
    |x.absolute - q| ≤ |y.absolute - q| ∧
      (y.absolute ≠ x.absolute → |y.absolute - q| = |x.absolute - q| → x.significand % 2 = 0) := by
  obtain ⟨⟨hleast, hgreatest, htie⟩, hcloser⟩ := h
  have hpos : (0 : ℚ) < 2 ^ x.scale := by positivity
  rw [le_div_iff₀ hpos] at hleast hcloser
  rw [div_le_iff₀ hpos] at hgreatest
  rw [lt_div_iff₀ hpos, div_lt_iff₀ hpos] at htie
  have hx : x.absolute = x.significand * 2 ^ x.scale := rfl
  have hhalf : |x.absolute - q| ≤ 2 ^ x.scale / 2 := abs_le.mpr ⟨by linarith, by linarith⟩
  have hright := le_abs_self (y.absolute - q)
  have hleft := neg_le_abs (y.absolute - q)
  rcases absolute_spaced x y with hsame | habove | hbelow | ⟨hleading, hscale, hbelow⟩
  · exact ⟨by rw [hsame], fun hne => absurd hsame hne⟩
  · refine ⟨by linarith, fun _ hequal => htie.resolve_right fun hwithin => ?_⟩
    linarith [hwithin.2]
  · refine ⟨by linarith, fun _ hequal => htie.resolve_right fun hwithin => ?_⟩
    linarith [hwithin.1]
  · -- The significand of a power of two is even.
    refine ⟨?_, fun _ _ => by rw [hleading]; decide⟩
    have hfield : 1 < x.exponentField := by
      unfold scale at hscale
      omega
    have hquarter := hcloser ⟨(fraction_eq_zero_iff hscale).mpr hleading, hfield⟩
    exact (abs_le.mpr ⟨by linarith, by linarith⟩ : |x.absolute - q| ≤ q - y.absolute).trans
      (by linarith)

theorem Covers.isNearest {x : Double} {q : ℚ} (h : x.Covers q) (hx : x.isFinite = true)
    (hpositive : x.isNegative = false) (hq : 0 < q) : x.IsNearest q := by
  have hself : x.toRat = x.absolute := by simp [toRat, hpositive]
  have hcloser (y : Double) : |y.absolute - q| ≤ |y.toRat - q| := by
    have hy := y.absolute_nonneg
    unfold toRat
    split
    next =>
      have hfar := neg_le_abs (-y.absolute - q)
      exact abs_le.mpr ⟨by linarith, by linarith⟩
    next => exact le_rfl
  refine ⟨hx, fun y _ => ?_, fun y _ hne hequal => ?_⟩
  · rw [hself]
    exact (h.absolute_nearest y).1.trans (hcloser y)
  · rw [hself] at hne hequal
    obtain ⟨hnearest, heven⟩ := h.absolute_nearest y
    refine heven (fun hsame => hne ?_) (le_antisymm ((hcloser y).trans hequal.le) hnearest)
    -- Two opposite numbers are equally near to a positive one only if they are zero.
    unfold toRat at hequal ⊢
    split at hequal
    next hnegative =>
      rw [if_pos hnegative, ← hsame]
      have hy := y.absolute_nonneg
      rw [← hsame, abs_of_nonpos (by linarith : -y.absolute - q ≤ 0)] at hequal
      rcases abs_cases (y.absolute - q) with ⟨habs, -⟩ | ⟨habs, -⟩
      · linarith
      · linarith
    next hpositive => rw [if_neg hpositive, hsame]

/-! Numbers that quotients are rounded to. -/

theorem about_roundQuotient (num : Nat) {den : Nat} (hden : 0 < den) :
    About (roundQuotient num den) (num / den) := by
  have hden' : (0 : ℚ) < den := by exact_mod_cast hden
  have hdiv : (num : ℚ) / den = (num / den : Nat) + (num % den : Nat) / den := by
    rw [div_eq_iff hden'.ne', add_mul, div_mul_cancel₀ _ hden'.ne']
    exact_mod_cast (Nat.div_add_mod' num den).symm
  have hless : ((num % den : Nat) : ℚ) / den < 1 := by
    rw [div_lt_one hden']
    exact_mod_cast Nat.mod_lt num hden
  have hnonneg : (0 : ℚ) ≤ (num % den : Nat) / den := by positivity
  have hhalf : 2 * (num % den) ≤ den ↔ ((num % den : Nat) : ℚ) / den ≤ 1 / 2 := by
    rw [div_le_div_iff₀ hden' two_pos, one_mul, mul_comm]
    exact_mod_cast Iff.rfl
  have hmiddle : 2 * (num % den) < den ↔ ((num % den : Nat) : ℚ) / den < 1 / 2 := by
    rw [div_lt_div_iff₀ hden' two_pos, one_mul, mul_comm]
    exact_mod_cast Iff.rfl
  unfold roundQuotient
  dsimp only
  rw [hdiv]
  generalize ((num % den : Nat) : ℚ) / den = part at *
  split
  next hup =>
    simp only [Bool.or_eq_true, decide_eq_true_eq, Bool.and_eq_true, beq_iff_eq] at hup
    have hlarge : 1 / 2 ≤ part := not_lt.mp (mt hmiddle.mpr (by omega))
    refine ⟨by push_cast; linarith, by push_cast; linarith, ?_⟩
    rcases hlarge.lt_or_eq with hlt | heq
    · exact Or.inr ⟨by push_cast; linarith, by push_cast; linarith⟩
    · have := hhalf.mpr heq.ge
      exact Or.inl (by omega)
  next hdown =>
    simp only [Bool.or_eq_true, decide_eq_true_eq, Bool.and_eq_true, beq_iff_eq] at hdown
    have hsmall : part ≤ 1 / 2 := hhalf.mp (by omega)
    refine ⟨by linarith, by linarith, ?_⟩
    rcases hsmall.lt_or_eq with hlt | heq
    · exact Or.inr ⟨by linarith, by linarith⟩
    · have := mt hmiddle.mp heq.not_lt
      exact Or.inl (by omega)

theorem about_roundShifted (num : Nat) {den : Nat} (hden : 0 < den) (place : Int) :
    About (roundShifted num den (-place)) (num / den / 2 ^ place) := by
  have hden' : 0 < den <<< (- -place).toNat := by
    rw [Nat.shiftLeft_eq]
    positivity
  have hscaled := div_shiftLeft num den (-place)
  rw [zpow_neg, ← div_eq_mul_inv] at hscaled
  rw [roundShifted_eq_roundQuotient, ← hscaled]
  exact about_roundQuotient _ hden'

/-- A quotient that has been scaled to 53 bits is covered by the number with its
rounded significand. If that has one bit more, it is twice the least one. -/
theorem covers_of_about {negative : Bool} {n : Nat} {place : Int} {q : ℚ}
    (habout : About n (q / 2 ^ place)) (hplace : -1074 ≤ place)
    (hgreatest : q / 2 ^ place < 2 * hiddenBit)
    (hleast : place = -1074 ∨ (hiddenBit : ℚ) ≤ q / 2 ^ place)
    (hrange : (place + 1074).toNat * hiddenBit + n < specialExponent * hiddenBit) :
    ∃ significand scale, IsParts significand scale ∧
      (place + 1074).toNat * hiddenBit + n = (scale + 1074).toNat * hiddenBit + significand ∧
      (ofParts negative significand scale).Covers q := by
  have hn : n ≤ 2 * hiddenBit := by
    have hless : (n : ℚ) < (2 * hiddenBit + 1 : Nat) := by
      push_cast
      linarith [habout.least]
    exact Nat.lt_succ_iff.mp (by exact_mod_cast hless)
  have hleading : place = -1074 ∨ hiddenBit ≤ n := by
    refine hleast.imp_right fun hleast => ?_
    have hless : (hiddenBit : ℚ) < (n + 1 : Nat) := by
      push_cast
      linarith [habout.greatest]
    exact Nat.lt_succ_iff.mp (by exact_mod_cast hless)
  rcases hn.lt_or_eq with hlt | rfl
  · have hparts : IsParts n place := by
      refine ⟨hlt, hplace, ?_, fun h => hleading.resolve_left (by omega)⟩
      unfold specialExponent hiddenBit at *
      omega
    refine ⟨n, place, hparts, rfl, ?_, ?_⟩
    · rwa [significand_ofParts hparts, scale_ofParts hparts]
    · rw [fraction_ofParts hparts, exponentField_ofParts hparts, significand_ofParts hparts,
        scale_ofParts hparts]
      rintro ⟨hfraction, hfield⟩
      have hpower : n = hiddenBit ∧ place ≠ -1074 := by
        unfold hiddenBit at *
        omega
      rw [hpower.1]
      linarith [hleast.resolve_left hpower.2]
  · have hparts : IsParts hiddenBit (place + 1) := by
      refine ⟨by decide, by omega, ?_, fun _ => le_rfl⟩
      unfold specialExponent hiddenBit at *
      omega
    have hhalved : q / 2 ^ (place + 1) = q / 2 ^ place / 2 := by
      rw [zpow_add_one₀ two_ne_zero, div_div]
    have hlow := habout.least
    push_cast at hlow
    refine ⟨hiddenBit, place + 1, hparts, ?_, ⟨?_, ?_, Or.inl ?_⟩, fun _ => ?_⟩
    · unfold hiddenBit
      omega
    · rw [significand_ofParts hparts, scale_ofParts hparts, hhalved]
      linarith
    · rw [significand_ofParts hparts, scale_ofParts hparts, hhalved]
      linarith
    · rw [significand_ofParts hparts]
      decide
    · rw [significand_ofParts hparts, scale_ofParts hparts, hhalved]
      linarith

/-- A quotient is covered by the number that it is rounded to. -/
theorem covers_ofRatio {num den : Nat} (hnum : 0 < num) (hden : 0 < den) {negative : Bool}
    (h : (ofRatio negative num den).isFinite = true) :
    (ofRatio negative num den).Covers (num / den) ∧
      (ofRatio negative num den).isNegative = negative := by
  obtain ⟨hplace, hgreatest, hleast⟩ := lastPlace_spec hnum hden
  have habout := about_roundShifted num hden (lastPlace num den)
  have hbit : (hiddenBit : ℚ) = 2 ^ (52 : Int) := by norm_num [hiddenBit]
  have hpos : (0 : ℚ) < 2 ^ lastPlace num den := by positivity
  rw [ofRatio, if_neg hnum.ne'] at h ⊢
  dsimp only at h ⊢
  generalize lastPlace num den = place at *
  have hbelow : (num / den / 2 ^ place : ℚ) < 2 * hiddenBit := by
    rwa [div_lt_iff₀ hpos, hbit, ← zpow_one_add₀ two_ne_zero, ← zpow_add₀ two_ne_zero]
  have habove : place = -1074 ∨ (hiddenBit : ℚ) ≤ num / den / 2 ^ place := by
    rwa [le_div_iff₀ hpos, hbit, ← zpow_add₀ two_ne_zero]
  split at h
  next hrange =>
    obtain ⟨significand, scale, hparts, hmagnitude, hcovers⟩ :=
      covers_of_about habout hplace hbelow habove hrange
    rw [if_pos hrange, hmagnitude]
    exact ⟨hcovers, isNegative_ofParts hparts⟩
  next => cases negative <;> cases h

/-- A positive quotient is rounded to the number nearest to it, unless it is out
of range. -/
theorem isNearest_ofRatio {num den : Nat} (hnum : 0 < num) (hden : 0 < den)
    (h : (ofRatio false num den).isFinite = true) : (ofRatio false num den).IsNearest (num / den) := by
  obtain ⟨hcovers, hpositive⟩ := covers_ofRatio hnum hden h
  exact hcovers.isNearest h hpositive (by positivity)

/-- A positive integer of 64 bits is rounded to the number nearest to it. -/
theorem isNearest_ofNat {n : Nat} (hpositive : 0 < n) (hbound : n < Word.unsignedEnd) :
    (ofNat n).IsNearest n := by
  have hrange : (n / (1 : Nat) : ℚ) < 2 ^ (1022 : Int) := by
    calc (n / (1 : Nat) : ℚ) = n := by simp
      _ < Word.unsignedEnd := by exact_mod_cast hbound
      _ = 2 ^ (64 : Int) := by norm_num [Word.unsignedEnd]
      _ < 2 ^ (1022 : Int) := zpow_lt_zpow_right₀ one_lt_two (by decide)
  have hnearest :=
    isNearest_ofRatio hpositive one_pos (isFinite_ofRatio hpositive one_pos hrange false)
  simpa [ofNat] using hnearest

theorem isNearest_ofInt {n : Int} (hpositive : 0 < n) (hbound : n < Word.unsignedEnd) :
    (ofInt n).IsNearest n := by
  obtain ⟨m, rfl⟩ := Int.eq_ofNat_of_zero_le hpositive.le
  have hrounded : ofInt m = ofNat m := by
    rw [ofInt, Int.natAbs_natCast, decide_eq_false (not_lt.mpr hpositive.le), ofNat]
  rw [hrounded, Int.cast_natCast]
  exact isNearest_ofNat (by exact_mod_cast hpositive) (by exact_mod_cast hbound)

end FieldQuery.Double
