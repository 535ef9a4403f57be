import FieldQuery.Number.Double
import Mathlib.Algebra.Order.Field.Power
import Mathlib.Data.Rat.Cast.Order
import Mathlib.Tactic.FieldSimp
import Mathlib.Tactic.Linarith
import Mathlib.Tactic.NormNum
import Mathlib.Tactic.Positivity
import Mathlib.Tactic.Ring

/-!
Rounding to binary64. A finite number stands for an integer significand times
a power of two, and covers the rationals that are nearer to it than to any
other number; each of them is rounded to it.
-/

namespace FieldQuery.Double

/-! Parts of a number. -/

theorem exponentField_lt (x : Double) : x.exponentField < 2048 := Nat.mod_lt _ (by decide)

theorem fraction_lt (x : Double) : x.fraction < hiddenBit := Nat.mod_lt _ (by decide)

theorem significand_lt (x : Double) : x.significand < 2 * hiddenBit := by
  have := x.fraction_lt
  unfold significand
  split <;> omega

theorem scale_ge (x : Double) : -1074 ≤ x.scale := by
  unfold scale
  omega

theorem exponentField_of_isFinite {x : Double} (h : x.isFinite = true) :
    x.exponentField < specialExponent := by
  have hlt := x.exponentField_lt
  simp only [isFinite, bne_iff_ne] at h
  unfold specialExponent at *
  omega

theorem scale_le {x : Double} (h : x.isFinite = true) : x.scale ≤ 971 := by
  have := exponentField_of_isFinite h
  unfold specialExponent at this
  unfold scale
  omega

/-- Only numbers of the least scale lack the leading bit. -/
theorem significand_ge {x : Double} (h : -1074 < x.scale) : hiddenBit ≤ x.significand := by
  unfold scale at h
  unfold significand
  split <;> omega

theorem fraction_eq_zero_iff {x : Double} (h : -1074 < x.scale) :
    x.fraction = 0 ↔ x.significand = hiddenBit := by
  unfold scale at h
  unfold significand
  split <;> omega

/-- The bits behind the sign. -/
def magnitude (x : Double) : Nat := x.bits.toNat % 0x8000000000000000

theorem ofMagnitude_magnitude (x : Double) : ofMagnitude x.isNegative x.magnitude = x := by
  obtain ⟨bits⟩ := x
  have hbits := bits.toNat_lt
  have hsign : isNegative ⟨bits⟩ = decide (0x8000000000000000 ≤ bits.toNat) := by
    simp only [isNegative, Nat.shiftRight_eq_div_pow, beq_eq_decide]
    congr 1
    rw [eq_iff_iff]
    omega
  unfold ofMagnitude magnitude
  rw [hsign]
  congr 1
  rw [← UInt64.toNat_inj, UInt64.toNat_ofNat']
  simp only [decide_eq_true_eq]
  split <;> omega

/-- The bits behind the sign count the numbers from zero upwards. -/
theorem magnitude_eq (x : Double) :
    x.magnitude = (x.scale + 1074).toNat * hiddenBit + x.significand := by
  have hbits := x.bits.toNat_lt
  unfold magnitude scale significand exponentField fraction hiddenBit
  rw [Nat.shiftRight_eq_div_pow]
  split <;> omega

theorem magnitude_lt {x : Double} (h : x.isFinite = true) :
    x.magnitude < specialExponent * hiddenBit := by
  have hscale := scale_le h
  have hsignificand := x.significand_lt
  rw [magnitude_eq]
  unfold specialExponent hiddenBit at *
  omega

/-- A significand and a scale that are those of a number. -/
structure IsParts (significand : Nat) (scale : Int) : Prop where
  significand_lt : significand < 2 * hiddenBit
  least : -1074 ≤ scale
  greatest : scale ≤ 971
  normal : -1074 < scale → hiddenBit ≤ significand

def ofParts (negative : Bool) (significand : Nat) (scale : Int) : Double :=
  ofMagnitude negative ((scale + 1074).toNat * hiddenBit + significand)

section Parts

variable {negative : Bool} {significand : Nat} {scale : Int}

theorem toNat_bits_ofParts (h : IsParts significand scale) :
    (ofParts negative significand scale).bits.toNat =
      (if negative then 0x8000000000000000 else 0) +
        ((scale + 1074).toNat * hiddenBit + significand) := by
  have hsignificand := h.significand_lt
  have hscale := h.greatest
  unfold ofParts ofMagnitude hiddenBit at *
  rw [UInt64.toNat_ofNat', Nat.mod_eq_of_lt]
  split <;> omega

theorem isNegative_ofParts (h : IsParts significand scale) :
    (ofParts negative significand scale).isNegative = negative := by
  have hsignificand := h.significand_lt
  have hscale := h.greatest
  unfold isNegative
  rw [toNat_bits_ofParts h, Nat.shiftRight_eq_div_pow]
  unfold hiddenBit at *
  cases negative with
  | true =>
      simp only [if_true, beq_iff_eq]
      omega
  | false =>
      simp only [Bool.false_eq_true, if_false, beq_eq_false_iff_ne]
      omega

theorem exponentField_ofParts (h : IsParts significand scale) :
    (ofParts negative significand scale).exponentField =
      (scale + 1074).toNat + significand / hiddenBit := by
  have hsignificand := h.significand_lt
  have hscale := h.greatest
  unfold exponentField
  rw [toNat_bits_ofParts h, Nat.shiftRight_eq_div_pow]
  unfold hiddenBit at *
  split <;> omega

theorem fraction_ofParts (h : IsParts significand scale) :
    (ofParts negative significand scale).fraction = significand % hiddenBit := by
  unfold fraction
  rw [toNat_bits_ofParts h]
  unfold hiddenBit
  split <;> omega

theorem isFinite_ofParts (h : IsParts significand scale) :
    (ofParts negative significand scale).isFinite = true := by
  have hsignificand := h.significand_lt
  have hscale := h.greatest
  simp only [isFinite, bne_iff_ne, exponentField_ofParts h]
  unfold specialExponent hiddenBit at *
  omega

theorem significand_ofParts (h : IsParts significand scale) :
    (ofParts negative significand scale).significand = significand := by
  have hsignificand := h.significand_lt
  have hleast := h.least
  have hnormal := h.normal
  rw [Double.significand, exponentField_ofParts h, fraction_ofParts h]
  unfold hiddenBit at *
  split <;> omega

theorem scale_ofParts (h : IsParts significand scale) :
    (ofParts negative significand scale).scale = scale := by
  have hsignificand := h.significand_lt
  have hleast := h.least
  have hnormal := h.normal
  rw [Double.scale, exponentField_ofParts h]
  unfold hiddenBit at *
  omega

end Parts

/-! Rounding a quotient. -/

theorem div_shiftLeft (num den : Nat) (k : Int) :
    ((num <<< k.toNat : Nat) : ℚ) / ((den <<< (-k).toNat : Nat) : ℚ) = num / den * 2 ^ k := by
  rcases Int.le_total 0 k with h | h
  · obtain ⟨n, rfl⟩ := Int.eq_ofNat_of_zero_le h
    simp [Nat.shiftLeft_eq, mul_div_right_comm]
  · obtain ⟨n, hn⟩ := Int.eq_ofNat_of_zero_le (Int.neg_nonneg_of_nonpos h)
    obtain rfl : k = -(n : Int) := by omega
    simp only [Int.toNat_neg_natCast, neg_neg, Int.toNat_natCast, Nat.shiftLeft_eq, zpow_neg,
      zpow_natCast]
    push_cast
    field_simp

/-- Quotients about `n` are rounded to it; those midway only if `n` is even. -/
theorem roundQuotient_eq_of_near {num den n : Nat} (hden : 0 < den)
    (hleast : 2 * n * den ≤ 2 * num + den) (hgreatest : 2 * num ≤ 2 * n * den + den)
    (htie : n % 2 = 0 ∨ 2 * n * den < 2 * num + den ∧ 2 * num < 2 * n * den + den) :
    roundQuotient num den = n := by
  have hdiv := Nat.div_add_mod num den
  have hmod := Nat.mod_lt num hden
  unfold roundQuotient
  generalize num / den = quotient at *
  generalize num % den = rest at *
  rw [mul_comm] at hdiv
  have habove : quotient ≤ n := by
    by_contra h
    have : (n + 1) * den ≤ quotient * den := Nat.mul_le_mul_right den (by omega)
    grind
  have hbelow : n ≤ quotient + 1 := by
    by_contra h
    have : (quotient + 2) * den ≤ n * den := Nat.mul_le_mul_right den (by omega)
    grind
  rcases Nat.lt_or_ge quotient n with h | h
  · obtain rfl : n = quotient + 1 := by omega
    have hrest : den ≤ 2 * rest := by grind
    grind
  · obtain rfl : n = quotient := by omega
    grind

theorem roundShifted_eq_roundQuotient (num den : Nat) (shift : Int) :
    roundShifted num den shift =
      roundQuotient (num <<< shift.toNat) (den <<< (-shift).toNat) := by
  unfold roundShifted
  split
  next h => rw [Int.toNat_of_nonpos (by omega : -shift ≤ 0), Nat.shiftLeft_zero]
  next h => rw [Int.toNat_of_nonpos (by omega : shift ≤ 0), Nat.shiftLeft_zero]

/-- The rationals that are rounded to `n`: those no farther than a half, which
are tied with a neighbour only if `n` is even. -/
structure About (n : Nat) (q : ℚ) : Prop where
  least : (n : ℚ) - 1 / 2 ≤ q
  greatest : q ≤ n + 1 / 2
  tie : n % 2 = 0 ∨ (n : ℚ) - 1 / 2 < q ∧ q < n + 1 / 2

theorem roundQuotient_eq {num den n : Nat} (hden : 0 < den) (h : About n (num / den)) :
    roundQuotient num den = n := by
  have hden' : (0 : ℚ) < den := by exact_mod_cast hden
  obtain ⟨hleast, hgreatest, htie⟩ := h
  rw [le_div_iff₀ hden'] at hleast
  rw [div_le_iff₀ hden'] at hgreatest
  rw [lt_div_iff₀ hden', div_lt_iff₀ hden'] at htie
  apply roundQuotient_eq_of_near hden
  · have : (2 * n * den : ℚ) ≤ 2 * num + den := by linarith
    exact_mod_cast this
  · have : (2 * num : ℚ) ≤ 2 * n * den + den := by linarith
    exact_mod_cast this
  · refine htie.imp_right fun ⟨hlt, hgt⟩ => ?_
    have hlt' : (2 * n * den : ℚ) < 2 * num + den := by linarith
    have hgt' : (2 * num : ℚ) < 2 * n * den + den := by linarith
    exact ⟨by exact_mod_cast hlt', by exact_mod_cast hgt'⟩

theorem roundShifted_eq {num den n : Nat} {place : Int} (hden : 0 < den)
    (h : About n (num / den / 2 ^ place)) : roundShifted num den (-place) = n := by
  have hscaled := div_shiftLeft num den (-place)
  have hden' : 0 < den <<< (- -place).toNat := by
    rw [Nat.shiftLeft_eq]
    positivity
  rw [zpow_neg, ← div_eq_mul_inv] at hscaled
  rw [roundShifted_eq_roundQuotient]
  exact roundQuotient_eq hden' (hscaled ▸ h)

/-! The place of rounding. -/

/-- Whether a quotient has one more bit than its terms suggest. -/
theorem wide_iff (num : Nat) {den : Nat} (hden : 0 < den) (e : Int) :
    (if 0 ≤ e then num ≥ den <<< (53 + e.toNat) else num <<< (-e).toNat ≥ den <<< 53) ↔
      (2 : ℚ) ^ (53 + e) ≤ num / den := by
  have hden' : (0 : ℚ) < den := by exact_mod_cast hden
  rw [le_div_iff₀ hden', zpow_add₀ two_ne_zero]
  split
  next h =>
    obtain ⟨n, rfl⟩ := Int.eq_ofNat_of_zero_le h
    rw [ge_iff_le, Nat.shiftLeft_eq, ← Nat.cast_le (α := ℚ)]
    norm_num [pow_add, mul_comm]
  next h =>
    obtain ⟨n, hn⟩ := Int.eq_ofNat_of_zero_le (by omega : 0 ≤ -e)
    obtain rfl : e = -(n : Int) := by omega
    have hpow : (0 : ℚ) < 2 ^ n := by positivity
    rw [ge_iff_le, Nat.shiftLeft_eq, Nat.shiftLeft_eq, ← Nat.cast_le (α := ℚ), neg_neg,
      Int.toNat_natCast, zpow_neg, zpow_natCast, mul_right_comm, ← div_eq_mul_inv,
      div_le_iff₀ hpow]
    norm_num [mul_comm]

/-- The lengths of its terms give the size of a quotient up to two bits. -/
theorem quotient_bounds {num den : Nat} (hnum : 0 < num) (hden : 0 < den) {e : Int}
    (he : (num.log2 : Int) = den.log2 + 53 + e) :
    (2 : ℚ) ^ (52 + e) ≤ num / den ∧ (num / den : ℚ) < 2 ^ (54 + e) := by
  have hden' : (0 : ℚ) < den := by exact_mod_cast hden
  have hnumLow : (2 : ℚ) ^ num.log2 ≤ num := by exact_mod_cast Nat.log2_self_le hnum.ne'
  have hnumHigh : (num : ℚ) < 2 ^ (num.log2 + 1) := by exact_mod_cast Nat.lt_log2_self
  have hdenLow : (2 : ℚ) ^ den.log2 ≤ den := by exact_mod_cast Nat.log2_self_le hden.ne'
  have hdenHigh : (den : ℚ) ≤ 2 ^ (den.log2 + 1) := by
    exact_mod_cast (Nat.lt_log2_self (n := den)).le
  have hpower (k : Int) (m n : Nat) (hk : k + m = n) : (2 : ℚ) ^ k * 2 ^ m = 2 ^ n := by
    rw [← zpow_natCast, ← zpow_natCast, ← zpow_add₀ two_ne_zero, hk]
  constructor
  · rw [le_div_iff₀ hden']
    calc (2 : ℚ) ^ (52 + e) * den ≤ 2 ^ (52 + e) * 2 ^ (den.log2 + 1) := by gcongr
      _ = 2 ^ num.log2 := hpower _ _ _ (by push_cast; omega)
      _ ≤ num := hnumLow
  · rw [div_lt_iff₀ hden']
    calc (num : ℚ) < 2 ^ (num.log2 + 1) := hnumHigh
      _ = 2 ^ (54 + e) * 2 ^ den.log2 := (hpower _ _ _ (by push_cast; omega)).symm
      _ ≤ 2 ^ (54 + e) * den := by gcongr

/-- A quotient has 53 bits above the place at which it is rounded, unless that
is the least place there is. -/
theorem lastPlace_spec {num den : Nat} (hnum : 0 < num) (hden : 0 < den) :
    -1074 ≤ lastPlace num den ∧ (num / den : ℚ) < 2 ^ (53 + lastPlace num den) ∧
      (lastPlace num den = -1074 ∨ (2 : ℚ) ^ (52 + lastPlace num den) ≤ num / den) := by
  have hbounds : ∀ e : Int, (num.log2 : Int) - den.log2 - 53 = e →
      (2 : ℚ) ^ (52 + e) ≤ num / den ∧ (num / den : ℚ) < 2 ^ (54 + e) :=
    fun e he => quotient_bounds hnum hden (by omega)
  have hwide := wide_iff num hden ((num.log2 : Int) - den.log2 - 53)
  unfold lastPlace
  generalize (num.log2 : Int) - den.log2 - 53 = e at *
  obtain ⟨hleast, hgreatest⟩ := hbounds e rfl
  simp only [hwide]
  -- The place is exact to one bit; the least place stands in for all below it.
  obtain ⟨place, hplace, hlow, hhigh⟩ : ∃ place,
      (if (2 : ℚ) ^ (53 + e) ≤ num / den then e + 1 else e) = place ∧
        (2 : ℚ) ^ (52 + place) ≤ num / den ∧ (num / den : ℚ) < 2 ^ (53 + place) := by
    by_cases h : (2 : ℚ) ^ (53 + e) ≤ num / den
    · refine ⟨e + 1, if_pos h, ?_, ?_⟩
      · rwa [show 52 + (e + 1) = 53 + e by ring]
      · rwa [show 53 + (e + 1) = 54 + e by ring]
    · exact ⟨e, if_neg h, hleast, not_le.mp h⟩
  rw [hplace]
  rcases Int.le_total place (-1074) with h | h
  · rw [max_eq_right h]
    exact ⟨le_rfl, hhigh.trans_le (zpow_le_zpow_right₀ one_le_two (by omega)), Or.inl rfl⟩
  · rw [max_eq_left h]
    exact ⟨h, hhigh, Or.inr hlow⟩

/-! Rounding to a number. -/

/-- The rationals that a finite number stands for. Below a power of two the
numbers are closer together, so less belongs to it on that side. -/
structure Covers (x : Double) (q : ℚ) : Prop where
  about : About x.significand (q / 2 ^ x.scale)
  closer : x.fraction = 0 ∧ 1 < x.exponentField →
    (x.significand : ℚ) - 1 / 4 ≤ q / 2 ^ x.scale

/-- What lies just below a power of two is rounded one place lower, and that
carries. -/
theorem Covers.about_below {x : Double} {q : ℚ} {place : Int} (h : x.Covers q)
    (hplace : -1074 ≤ place) (hlt : place < x.scale) (hq : q < 2 ^ (53 + place)) :
    x.significand = hiddenBit ∧ place = x.scale - 1 ∧ About (2 * hiddenBit) (q / 2 ^ place) := by
  have hscale : -1074 < x.scale := by omega
  have hpos : (0 : ℚ) < 2 ^ x.scale := by positivity
  have hbit : (hiddenBit : ℚ) = 2 ^ (52 : Int) := by norm_num [hiddenBit]
  have hbelow (k : Int) (hk : 53 + place ≤ k + x.scale) : q / 2 ^ x.scale < 2 ^ k := by
    rw [div_lt_iff₀ hpos, ← zpow_add₀ two_ne_zero]
    exact hq.trans_le (zpow_le_zpow_right₀ one_le_two hk)
  have hsignificand : x.significand = hiddenBit := by
    have hhalf := h.about.least.trans_lt (hbelow 52 (by omega))
    rw [← hbit] at hhalf
    have : (x.significand : ℚ) < hiddenBit + 1 := by linarith
    exact le_antisymm (Nat.lt_succ_iff.mp (by exact_mod_cast this)) (significand_ge hscale)
  have hcloser : (hiddenBit : ℚ) - 1 / 4 ≤ q / 2 ^ x.scale := by
    have hfield : 1 < x.exponentField := by
      unfold scale at hscale
      omega
    rw [← hsignificand]
    exact h.closer ⟨(fraction_eq_zero_iff hscale).mpr hsignificand, hfield⟩
  obtain rfl : place = x.scale - 1 := by
    by_contra hne
    have hquarter := hcloser.trans_lt (hbelow 51 (by omega))
    norm_num [hiddenBit] at hquarter
  refine ⟨hsignificand, rfl, ?_⟩
  have hdouble : q / 2 ^ (x.scale - 1) = 2 * (q / 2 ^ x.scale) := by
    rw [zpow_sub_one₀ two_ne_zero]
    field_simp
  have hcarry := hbelow 52 (by omega)
  rw [← hbit] at hcarry
  rw [hdouble]
  refine ⟨?_, ?_, Or.inl (by decide)⟩
  · push_cast
    linarith
  · push_cast
    linarith

/-- What a number covers is rounded to it. -/
theorem ofRatio_eq {x : Double} (hx : x.isFinite = true) {num den : Nat} (hnum : 0 < num)
    (hden : 0 < den) (h : x.Covers (num / den)) : ofRatio x.isNegative num den = x := by
  obtain ⟨hleast, hbound, hplace⟩ := lastPlace_spec hnum hden
  suffices hmagnitude : (lastPlace num den + 1074).toNat * hiddenBit +
      roundShifted num den (-lastPlace num den) = x.magnitude by
    rw [ofRatio, if_neg hnum.ne']
    simp only [hmagnitude]
    rw [if_pos (magnitude_lt hx), ofMagnitude_magnitude]
  generalize lastPlace num den = place at *
  rw [magnitude_eq]
  rcases lt_trichotomy place x.scale with hlt | rfl | hgt
  · obtain ⟨hsignificand, hcarried, habout⟩ := h.about_below hleast hlt hbound
    rw [roundShifted_eq hden habout, hsignificand]
    unfold hiddenBit
    omega
  · rw [roundShifted_eq hden h.about]
  · -- The number does not reach the next power of two.
    have hscale := x.scale_ge
    have hlow : (2 : ℚ) ^ (52 + place) ≤ num / den := hplace.resolve_left (by omega)
    have hpower : (2 : ℚ) ^ (53 : Int) ≤ num / den / 2 ^ x.scale := by
      rw [le_div_iff₀ (by positivity), ← zpow_add₀ two_ne_zero]
      exact (zpow_le_zpow_right₀ one_le_two (by omega)).trans hlow
    have hsignificand : (x.significand : ℚ) + 1 ≤ 2 * hiddenBit := by
      exact_mod_cast x.significand_lt
    have hreach := hpower.trans h.about.greatest
    norm_num [hiddenBit] at hreach hsignificand
    linarith

end FieldQuery.Double
