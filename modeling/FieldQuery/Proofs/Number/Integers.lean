import FieldQuery.Proofs.Number.Text

/-!
Integers among the numbers. A number is equal to an integer only if that is a
significand times a power of two, and the decimal of such an integer is read as
a number equal to it. Integers of one word are never rounded to infinity.
-/

namespace FieldQuery.Double

/-- The integers that 53 bits and a power of two can hold. -/
def Representable (n : Int) : Prop :=
  ∃ significand k : Nat, significand < 2 * hiddenBit ∧ n.natAbs = significand * 2 ^ k

theorem representable_of_lt {n : Int} (h : n.natAbs < 2 * hiddenBit) : Representable n :=
  ⟨n.natAbs, 0, h, by simp⟩

/-! Numbers that are equal to integers. -/

theorem ratio_eq (x : Double) :
    x.ratio = (x.significand <<< x.scale.toNat, 1 <<< (-x.scale).toNat) := by
  unfold ratio
  split
  next h => rw [Int.toNat_of_nonpos (by omega : -x.scale ≤ 0), Nat.shiftLeft_zero]
  next h => rw [Int.toNat_of_nonpos (by omega : x.scale ≤ 0), Nat.shiftLeft_zero]

theorem ratio_snd_pos (x : Double) : 0 < x.ratio.2 := by
  rw [ratio_eq]
  simp [Nat.shiftLeft_eq]

theorem ratio_div (x : Double) : (x.ratio.1 : ℚ) / x.ratio.2 = x.significand * 2 ^ x.scale := by
  have hscaled := div_shiftLeft x.significand 1 x.scale
  rw [ratio_eq, hscaled]
  simp

/-- The ratio of a number is an integer if the number is equal to one. -/
theorem ratio_fst_eq_mul_iff (x : Double) (n : Nat) :
    x.ratio.1 = n * x.ratio.2 ↔ (n : ℚ) = x.significand * 2 ^ x.scale := by
  have hden : (x.ratio.2 : ℚ) ≠ 0 := by exact_mod_cast x.ratio_snd_pos.ne'
  rw [← ratio_div, eq_div_iff hden]
  norm_cast
  exact eq_comm

/-- An integer with a sign. -/
def signed (negative : Bool) (n : Nat) : Int := if negative then -n else n

theorem natAbs_signed (negative : Bool) (n : Nat) : (signed negative n).natAbs = n := by
  cases negative <;> simp [signed]

theorem toInt?_eq {x : Double} (hx : x.isFinite = true) {n : Nat}
    (h : (n : ℚ) = x.significand * 2 ^ x.scale) : x.toInt? = some (signed x.isNegative n) := by
  have hratio := (x.ratio_fst_eq_mul_iff n).mpr h
  have hpos := x.ratio_snd_pos
  unfold toInt?
  rw [hx]
  generalize x.ratio = ratio at *
  obtain ⟨num, den⟩ := ratio
  obtain rfl : num = n * den := hratio
  simp [signed, Nat.mul_div_cancel n hpos]

theorem exists_of_toInt? {x : Double} {n : Int} (h : x.toInt? = some n) :
    (n.natAbs : ℚ) = x.significand * 2 ^ x.scale := by
  rw [← ratio_fst_eq_mul_iff]
  unfold toInt? at h
  generalize x.ratio = ratio at *
  obtain ⟨num, den⟩ := ratio
  cases hx : x.isFinite with
  | false => simp [hx] at h
  | true =>
      simp only [hx, Bool.not_true, Bool.false_eq_true, if_false] at h
      split at h
      next hmod =>
        obtain rfl := Option.some.inj h
        have habs := natAbs_signed x.isNegative (num / den)
        rw [signed] at habs
        rw [habs]
        exact (Nat.div_mul_cancel (Nat.dvd_of_mod_eq_zero hmod)).symm
      next => simp at h

theorem representable_of_toInt? {x : Double} {n : Int} (h : x.toInt? = some n) :
    Representable n := by
  have hn := exists_of_toInt? h
  have hsignificand := x.significand_lt
  rcases Int.le_total 0 x.scale with hscale | hscale
  · obtain ⟨k, hk⟩ := Int.eq_ofNat_of_zero_le hscale
    refine ⟨x.significand, k, hsignificand, ?_⟩
    rw [hk, zpow_natCast] at hn
    exact_mod_cast hn
  · obtain ⟨k, hk⟩ := Int.eq_ofNat_of_zero_le (Int.neg_nonneg_of_nonpos hscale)
    obtain hk' : x.scale = -(k : Int) := by omega
    apply representable_of_lt
    have hmul : n.natAbs * 2 ^ k = x.significand := by
      rw [hk', zpow_neg, zpow_natCast, ← div_eq_mul_inv, eq_div_iff (by positivity)] at hn
      exact_mod_cast hn
    calc n.natAbs ≤ n.natAbs * 2 ^ k := Nat.le_mul_of_pos_right _ (by positivity)
      _ = x.significand := hmul
      _ < 2 * hiddenBit := hsignificand

/-! Reading integers. -/

theorem log2_le_of_le {n : Nat} (h : n ≤ Word.signedEnd) : n.log2 ≤ 63 := by
  rcases Nat.eq_zero_or_pos n with rfl | hpos
  · decide
  · have hlow := Nat.log2_self_le hpos.ne'
    by_contra hlarge
    have hpower : 2 ^ 64 ≤ 2 ^ n.log2 := Nat.pow_le_pow_right (by decide) (by omega)
    unfold Word.signedEnd at h
    omega

/-- The scale that gives an integer 53 bits, the first of them one. -/
theorem isParts_of_log2 {n significand : Nat} {scale : Int} (hpos : 0 < n) (hn : n.log2 ≤ 63)
    (hscale : (n.log2 : Int) = 52 + scale) (hvalue : (n : ℚ) = significand * 2 ^ scale) :
    IsParts significand scale ∧ hiddenBit ≤ significand := by
  have hpower : (0 : ℚ) < 2 ^ scale := by positivity
  have hbit : (hiddenBit : ℚ) = 2 ^ (52 : Int) := by norm_num [hiddenBit]
  have hleast : (hiddenBit : ℚ) ≤ significand := by
    have hlow : (2 : ℚ) ^ (n.log2 : Int) ≤ n := by exact_mod_cast Nat.log2_self_le hpos.ne'
    rw [hscale, zpow_add₀ two_ne_zero, ← hbit, hvalue] at hlow
    exact le_of_mul_le_mul_right hlow hpower
  have hgreatest : (significand : ℚ) < 2 * hiddenBit := by
    have hhigh : (n : ℚ) < 2 ^ (n.log2 + 1 : Int) := by
      exact_mod_cast (Nat.lt_log2_self : n < 2 ^ (n.log2 + 1))
    rw [zpow_add_one₀ two_ne_zero, hscale, zpow_add₀ two_ne_zero, ← hbit, hvalue, mul_right_comm,
      mul_comm (hiddenBit : ℚ)] at hhigh
    exact lt_of_mul_lt_mul_right hhigh hpower.le
  have hleast' : hiddenBit ≤ significand := by exact_mod_cast hleast
  exact ⟨⟨by exact_mod_cast hgreatest, by omega, by omega, fun _ => hleast'⟩, hleast'⟩

theorem exists_isParts {n : Nat} (hpos : 0 < n) (hn : n ≤ Word.signedEnd)
    (h : Representable n) : ∃ (significand : Nat) (scale : Int), IsParts significand scale ∧
      hiddenBit ≤ significand ∧ (n : ℚ) = significand * 2 ^ scale := by
  have hlog := log2_le_of_le hn
  rcases Nat.le_total n.log2 52 with hshort | hlong
  · obtain ⟨rest, hrest⟩ := Nat.exists_eq_add_of_le hshort
    have hvalue : (n : ℚ) = (n * 2 ^ rest : Nat) * 2 ^ (-(rest : Int)) := by
      rw [zpow_neg, zpow_natCast]
      push_cast
      field_simp
    obtain ⟨hparts, hleast⟩ := isParts_of_log2 hpos hlog (by omega) hvalue
    exact ⟨_, _, hparts, hleast, hvalue⟩
  · obtain ⟨rest, hrest⟩ := Nat.exists_eq_add_of_le hlong
    obtain ⟨significand, k, hsignificand, hk⟩ := h
    rw [Int.natAbs_natCast] at hk
    -- The power of two is large enough to take the bits behind the 53rd from it.
    have hexponent : rest ≤ k := by
      by_contra hlt
      have hsmall : n < 2 ^ n.log2 := by
        calc n = significand * 2 ^ k := hk
          _ < 2 * hiddenBit * 2 ^ k := by gcongr
          _ = 2 ^ (53 + k) := by rw [pow_add]; rfl
          _ ≤ 2 ^ n.log2 := Nat.pow_le_pow_right (by decide) (by omega)
      have hlow := Nat.log2_self_le hpos.ne'
      omega
    obtain ⟨more, rfl⟩ := Nat.exists_eq_add_of_le hexponent
    have hvalue : (n : ℚ) = (significand * 2 ^ more : Nat) * 2 ^ (rest : Int) := by
      rw [hk, zpow_natCast, pow_add]
      push_cast
      ring
    obtain ⟨hparts, hleast⟩ := isParts_of_log2 hpos hlog (by omega) hvalue
    exact ⟨_, _, hparts, hleast, hvalue⟩

/-- A number covers what it is equal to. -/
theorem covers_self (x : Double) : x.Covers (x.significand * 2 ^ x.scale) := by
  have hpos : (2 : ℚ) ^ x.scale ≠ 0 := by positivity
  have hself : (x.significand * 2 ^ x.scale : ℚ) / 2 ^ x.scale = x.significand :=
    mul_div_cancel_right₀ _ hpos
  refine ⟨⟨?_, ?_, Or.inr ⟨?_, ?_⟩⟩, fun _ => ?_⟩ <;> rw [hself] <;> linarith

theorem isZero_ofParts {negative : Bool} {significand : Nat} {scale : Int}
    (h : IsParts significand scale) (hleading : hiddenBit ≤ significand) :
    (ofParts negative significand scale).isZero = false := by
  have hfield : (ofParts negative significand scale).exponentField ≠ 0 := by
    rw [exponentField_ofParts h]
    have hone : 1 ≤ significand / hiddenBit := (Nat.one_le_div_iff (by decide)).mpr hleading
    omega
  simp [isZero, hfield]

theorem toInt?_ofDecimal_of_representable {n : Nat} (hn : n ≤ Word.signedEnd)
    (h : Representable n) (negative : Bool) :
    (ofDecimal negative n 0).toInt? = some (signed negative n) := by
  rcases Nat.eq_zero_or_pos n with rfl | hpos
  · cases negative <;> rfl
  · obtain ⟨significand, scale, hparts, hleading, hvalue⟩ := exists_isParts hpos hn h
    have hfinite : (ofParts negative significand scale).isFinite = true :=
      isFinite_ofParts hparts
    have hequal : (n : ℚ) = (ofParts negative significand scale).significand *
        2 ^ (ofParts negative significand scale).scale := by
      rw [significand_ofParts hparts, scale_ofParts hparts, hvalue]
    have hcovers : (ofParts negative significand scale).Covers (n * 10 ^ (0 : Int)) := by
      rw [zpow_zero, mul_one, hequal]
      exact covers_self _
    have hread := ofDecimal_eq hfinite (isZero_ofParts hparts hleading) hcovers
    have hint := toInt?_eq hfinite hequal
    rw [isNegative_ofParts hparts] at hread hint
    rw [hread, hint]

/-- The decimal of an integer of one word is read as a number equal to it
exactly if such a number exists. -/
theorem toInt?_ofDecimal_iff {n : Nat} (hn : n ≤ Word.signedEnd) (negative : Bool) :
    (ofDecimal negative n 0).toInt? = some (signed negative n) ↔
      Representable (signed negative n) := by
  have hsame : Representable (signed negative n) ↔ Representable n := by
    simp only [Representable, natAbs_signed, Int.natAbs_natCast]
  constructor
  · exact representable_of_toInt?
  · intro h
    exact toInt?_ofDecimal_of_representable hn (hsame.mp h) negative

/-! Integers are read as finite numbers. -/

theorem isFinite_ofMagnitude {magnitude : Nat} (h : magnitude < specialExponent * hiddenBit)
    (negative : Bool) : (ofMagnitude negative magnitude).isFinite = true := by
  simp only [isFinite, bne_iff_ne, exponentField, ofMagnitude, UInt64.toNat_ofNat',
    Nat.shiftRight_eq_div_pow]
  unfold specialExponent hiddenBit at *
  split <;> omega

theorem roundQuotient_le {num den bound : Nat} (h : num < bound * den) :
    roundQuotient num den ≤ bound := by
  have hquotient : num / den < bound := Nat.div_lt_of_lt_mul (by rwa [mul_comm] at h)
  unfold roundQuotient
  dsimp only
  split <;> omega

theorem isFinite_ofRatio {num den : Nat} (hnum : 0 < num) (hden : 0 < den)
    (h : (num / den : ℚ) < 2 ^ (1022 : Int)) (negative : Bool) :
    (ofRatio negative num den).isFinite = true := by
  obtain ⟨hleast, hbound, hplace⟩ := lastPlace_spec hnum hden
  have hrounded : roundShifted num den (-lastPlace num den) ≤ 2 * hiddenBit := by
    have hscaled := div_shiftLeft num den (-lastPlace num den)
    have hden' : 0 < den <<< (- -lastPlace num den).toNat := by
      rw [Nat.shiftLeft_eq]
      positivity
    have hless : (num / den : ℚ) * 2 ^ (-lastPlace num den) < 2 * hiddenBit := by
      calc (num / den : ℚ) * 2 ^ (-lastPlace num den)
          < 2 ^ (53 + lastPlace num den) * 2 ^ (-lastPlace num den) := by gcongr
        _ = 2 ^ (53 : Int) := by rw [← zpow_add₀ two_ne_zero, add_neg_cancel_right]
        _ = 2 * hiddenBit := by norm_num [hiddenBit]
    rw [← hscaled, div_lt_iff₀ (by exact_mod_cast hden')] at hless
    rw [roundShifted_eq_roundQuotient]
    exact roundQuotient_le (by exact_mod_cast hless)
  have hgreatest : lastPlace num den < 970 := by
    rcases hplace with hplace | hplace
    · omega
    · have hpower := (zpow_lt_zpow_iff_right₀ one_lt_two).mp (hplace.trans_lt h)
      omega
  unfold ofRatio
  rw [if_neg hnum.ne']
  dsimp only
  split
  next hlt => exact isFinite_ofMagnitude hlt negative
  next hinfinite =>
    unfold specialExponent hiddenBit at *
    omega

theorem isFinite_ofDecimal {n : Nat} (hn : n ≤ Word.signedEnd) (negative : Bool) :
    (ofDecimal negative n 0).isFinite = true := by
  rcases Nat.eq_zero_or_pos n with rfl | hpos
  · cases negative <;> rfl
  · have hlength : (Nat.toDigits 10 n).length ≤ 19 := by
      obtain ⟨hlow, -⟩ := length_toDigits_bounds hpos
      by_contra hlong
      have hpower : 10 ^ 19 ≤ 10 ^ ((Nat.toDigits 10 n).length - 1) :=
        Nat.pow_le_pow_right (by decide) (by omega)
      unfold Word.signedEnd at hn
      omega
    have hnear : ¬ ((Nat.toDigits 10 n).length + (0 : Int) > 310) := by omega
    have hlarge : ¬ ((Nat.toDigits 10 n).length + (0 : Int) < -330) := by omega
    have hless : ((n * Nat.pow 10 (0 : Int).toNat : Nat) / (1 : Nat) : ℚ) < 2 ^ (1022 : Int) := by
      calc ((n * Nat.pow 10 (0 : Int).toNat : Nat) / (1 : Nat) : ℚ) = n := by simp
        _ ≤ Word.signedEnd := by exact_mod_cast hn
        _ = 2 ^ (63 : Int) := by norm_num [Word.signedEnd]
        _ < 2 ^ (1022 : Int) := zpow_lt_zpow_right₀ one_lt_two (by decide)
    unfold ofDecimal
    simp only [hpos.ne', hnear, hlarge, if_false, le_refl, if_true]
    exact isFinite_ofRatio (by simpa using hpos) (by decide) hless negative

end FieldQuery.Double

namespace FieldQuery.Numeral

theorem eq_of_takeSign {text digits : List Char} {negative : Bool}
    (h : takeSign text = (negative, digits)) :
    text = digits ∨ text = '-' :: digits ∨ text = '+' :: digits := by
  unfold takeSign at h
  split at h
  next =>
    obtain ⟨-, rfl⟩ := Prod.mk.inj h
    exact Or.inr (Or.inl rfl)
  next =>
    obtain ⟨-, rfl⟩ := Prod.mk.inj h
    exact Or.inr (Or.inr rfl)
  next =>
    obtain ⟨-, rfl⟩ := Prod.mk.inj h
    exact Or.inl rfl

/-- An integer numeral is read as a number by its decimal. -/
theorem exists_of_int? {text : List Char} {n : Int} (h : int? text = some n) :
    ∃ negative magnitude, n = Double.signed negative magnitude ∧
      double? text = some (.ofDecimal negative magnitude 0) ∧
      ∀ c ∈ text, c.isDigit = true ∨ c = '-' ∨ c = '+' := by
  obtain ⟨negative, digits, hsign⟩ : ∃ negative digits, takeSign text = (negative, digits) :=
    ⟨_, _, rfl⟩
  rw [int?, hsign] at h
  dsimp only at h
  split at h
  next hdigits =>
    obtain ⟨hne, hall⟩ := hdigits
    rw [List.all_eq_true] at hall
    refine ⟨negative, digitsValue digits, (Option.some.inj h).symm, ?_, ?_⟩
    · have hspan : (digits ++ []).span Char.isDigit = (digits, []) := span_digits hall (by simp)
      rw [List.append_nil] at hspan
      simp only [double?, hsign, hspan, takeFraction, exponent?]
      simp [hne]
    · intro c hc
      rcases eq_of_takeSign hsign with rfl | rfl | rfl
      · exact Or.inl (hall c hc)
      · rcases List.mem_cons.mp hc with rfl | hc
        · exact Or.inr (Or.inl rfl)
        · exact Or.inl (hall c hc)
      · rcases List.mem_cons.mp hc with rfl | hc
        · exact Or.inr (Or.inr rfl)
        · exact Or.inl (hall c hc)
  next => simp at h

end FieldQuery.Numeral
