import FieldQuery.Number.Decimal
import FieldQuery.Proofs.Number.Rounding
import Mathlib.Tactic.LinearCombination

/-!
The shortest decimal of a number. Seventeen digits tell a number from its
neighbours, so the search always ends, with a decimal that the number covers;
reading that decimal gives the number back.
-/

namespace FieldQuery

def Decimal.value (d : Decimal) : ℚ := d.digits * 10 ^ d.exponent

namespace Double

/-! Grids of decimals. -/

theorem zpow_eq_div (a : ℚ) (k : Int) : a ^ k = a ^ k.toNat / a ^ (-k).toNat := by
  rcases Int.le_total 0 k with h | h
  · obtain ⟨n, rfl⟩ := Int.eq_ofNat_of_zero_le h
    simp
  · obtain ⟨n, hn⟩ := Int.eq_ofNat_of_zero_le (Int.neg_nonneg_of_nonpos h)
    obtain rfl : k = -(n : Int) := by omega
    simp

theorem gridRatio_div (ten two : Int) :
    ((gridRatio ten two).1 : ℚ) / (gridRatio ten two).2 = 10 ^ ten / 2 ^ two := by
  have hscaled := div_shiftLeft (10 ^ ten.toNat) (10 ^ (-ten).toNat) (-two)
  rw [neg_neg] at hscaled
  rw [gridRatio]
  simp only [Nat.pow_eq]
  rw [hscaled, zpow_eq_div 10 ten, zpow_neg]
  push_cast
  rfl

theorem gridRatio_fst_pos (ten two : Int) : 0 < (gridRatio ten two).1 := by
  simp only [gridRatio, Nat.shiftLeft_eq]
  exact Nat.mul_pos (Nat.pow_pos (by decide)) (Nat.pow_pos (by decide))

theorem gridRatio_snd_pos (ten two : Int) : 0 < (gridRatio ten two).2 := by
  simp only [gridRatio, Nat.shiftLeft_eq]
  exact Nat.mul_pos (Nat.pow_pos (by decide)) (Nat.pow_pos (by decide))

/-- What the numbers below leave to this one, in quarters of its last place. -/
def lowerGap (x : Double) (den : Nat) : Nat :=
  if x.fraction = 0 ∧ 1 < x.exponentField then den else 2 * den

/-- The multiple `n` of a unit reads back to the number. The unit and the
number are given in quarters of the last place, and those in parts of `den`. -/
def Inside (x : Double) (unit den n : Nat) : Prop :=
  if x.significand % 2 = 0 then
    4 * x.significand * den ≤ n * unit + x.lowerGap den ∧
      n * unit ≤ 4 * x.significand * den + 2 * den
  else
    4 * x.significand * den < n * unit + x.lowerGap den ∧
      n * unit < 4 * x.significand * den + 2 * den

section Grid

variable {x : Double} {tie : Tie} {place : Int} {d : Decimal} {unit den : Nat}

private theorem taken_of_ite {α : Type} {p q : Prop} [Decidable p] [Decidable q] {a b d : α}
    (h : (if p then some a else if q then some b else none) = some d) :
    p ∧ a = d ∨ q ∧ b = d := by
  split at h
  next hp => exact Or.inl ⟨hp, Option.some.inj h⟩
  next =>
    split at h
    next hq => exact Or.inr ⟨hq, Option.some.inj h⟩
    next => cases h

/-- The test for a multiple, as the search computes it. -/
theorem inside_iff {n : Nat} : (if x.significand % 2 = 0 then
      decide (4 * x.significand * den ≤ n * unit +
        if x.fraction = 0 ∧ 1 < x.exponentField then den else 2 * den) &&
      decide (n * unit ≤ 4 * x.significand * den + 2 * den)
    else
      decide (4 * x.significand * den < n * unit +
        if x.fraction = 0 ∧ 1 < x.exponentField then den else 2 * den) &&
      decide (n * unit < 4 * x.significand * den + 2 * den)) = true ↔ x.Inside unit den n := by
  unfold Inside lowerGap
  split <;> simp only [Bool.and_eq_true, decide_eq_true_eq]

theorem Inside.le {n : Nat} (h : x.Inside unit den n) :
    4 * x.significand * den ≤ n * unit + x.lowerGap den ∧
      n * unit ≤ 4 * x.significand * den + 2 * den := by
  unfold Inside at h
  split at h
  next => exact h
  next => exact ⟨h.1.le, h.2.le⟩

theorem Inside.lt {n : Nat} (h : x.Inside unit den n) (hodd : x.significand % 2 ≠ 0) :
    4 * x.significand * den < n * unit + x.lowerGap den ∧
      n * unit < 4 * x.significand * den + 2 * den := by
  rwa [Inside, if_neg hodd] at h

theorem lowerGap_le (x : Double) (den : Nat) : x.lowerGap den ≤ 2 * den := by
  unfold lowerGap
  split <;> omega

theorem inside_of_onGrid? (h : x.onGrid? tie place = some d) :
    d.exponent = place ∧ x.Inside (gridRatio place (x.scale - 2)).1
      (gridRatio place (x.scale - 2)).2 d.digits := by
  unfold onGrid? at h
  generalize gridRatio place (x.scale - 2) = grid at h
  obtain ⟨unit, den⟩ := grid
  dsimp only at h
  rcases taken_of_ite h with ⟨htest, rfl⟩ | ⟨htest, rfl⟩
  · exact ⟨rfl, inside_iff.mp htest⟩
  · exact ⟨rfl, inside_iff.mp htest⟩

/-- The multiple of the unit nearer to a value. -/
def nearer (tie : Tie) (value unit : Nat) : Nat :=
  if 2 * (value % unit) < unit then value / unit
  else if unit < 2 * (value % unit) then value / unit + 1
  else if tie.goesUp (value / unit) then value / unit + 1
  else value / unit

theorem nearer_spec (tie : Tie) (value : Nat) (hunit : 0 < unit) :
    2 * value ≤ 2 * (nearer tie value unit * unit) + unit ∧
      2 * (nearer tie value unit * unit) ≤ 2 * value + unit := by
  have hdiv := Nat.div_add_mod' value unit
  have hmod := Nat.mod_lt value hunit
  unfold nearer
  generalize value / unit = below at *
  generalize value % unit = rest at *
  have habove : (below + 1) * unit = below * unit + unit := Nat.succ_mul below unit
  split
  next => omega
  next =>
    split
    next => omega
    next => split <;> omega

/-- The search on a grid ends if the nearer neighbour is inside. -/
theorem isSome_onGrid? (hgrid : gridRatio place (x.scale - 2) = (unit, den))
    (h : x.Inside unit den (nearer tie (4 * x.significand * den) unit)) :
    (x.onGrid? tie place).isSome = true := by
  unfold onGrid?
  rw [hgrid]
  dsimp only
  rw [if_pos]
  · rfl
  · exact inside_iff.mpr h

/-- What is inside is covered. -/
theorem covers_of_inside {n : Nat} (hden : 0 < den)
    (hgrid : (unit : ℚ) / den = 10 ^ place / 2 ^ (x.scale - 2)) (h : x.Inside unit den n) :
    x.Covers (n * 10 ^ place) := by
  have hden' : (0 : ℚ) < 4 * den := by exact_mod_cast Nat.mul_pos (by decide) hden
  have hvalue : (n : ℚ) * 10 ^ place / 2 ^ x.scale = n * unit / (4 * den) := by
    have hquarters : (2 : ℚ) ^ (x.scale - 2) = 2 ^ x.scale / 4 := by
      rw [zpow_sub₀ two_ne_zero]
      norm_num
    calc (n : ℚ) * 10 ^ place / 2 ^ x.scale = n * (10 ^ place / (2 ^ x.scale / 4)) / 4 := by
          field_simp
      _ = n * (unit / den) / 4 := by rw [hgrid, hquarters]
      _ = n * unit / (4 * den) := by ring
  have hgap : (x.lowerGap den : ℚ) ≤ 2 * den := by exact_mod_cast x.lowerGap_le den
  have hleast : (4 * x.significand * den : ℚ) ≤ n * unit + x.lowerGap den := by
    exact_mod_cast h.le.1
  have hgreatest : (n * unit : ℚ) ≤ 4 * x.significand * den + 2 * den := by
    exact_mod_cast h.le.2
  constructor
  · rw [hvalue]
    refine ⟨?_, ?_, ?_⟩
    · rw [le_div_iff₀ hden']
      linarith
    · rw [div_le_iff₀ hden']
      linarith
    · rw [or_iff_not_imp_left]
      intro hodd
      have hlow : (4 * x.significand * den : ℚ) < n * unit + x.lowerGap den := by
        exact_mod_cast (h.lt hodd).1
      have hhigh : (n * unit : ℚ) < 4 * x.significand * den + 2 * den := by
        exact_mod_cast (h.lt hodd).2
      rw [lt_div_iff₀ hden', div_lt_iff₀ hden']
      constructor <;> linarith
  · intro hpower
    have hclose : x.lowerGap den = den := if_pos hpower
    rw [hclose] at hleast
    rw [hvalue, le_div_iff₀ hden']
    linarith

end Grid

/-! Seventeen digits. -/

theorem significand_pos {x : Double} (h : x.isZero = false) : 0 < x.significand := by
  have hbit : 0 < hiddenBit := by decide
  simp only [isZero, Bool.and_eq_false_iff, beq_eq_false_iff_ne] at h
  unfold significand
  split
  next hzero =>
    rcases h with h | h
    · exact absurd hzero h
    · exact Nat.pos_of_ne_zero h
  next => omega

/-- Thirty-one digits are fewer than 103 bits, and 93 bits fewer than 28 digits. -/
theorem ten_zpow_le_two_zpow {a e : Int} (hnonneg : 0 ≤ e → 103 * a ≤ 31 * e)
    (hneg : e < 0 → 93 * a ≤ 28 * e) : (10 : ℚ) ^ a ≤ 2 ^ e := by
  have hpowers {n m : Nat} (hn : n ≠ 0) (h : n * a ≤ m * e)
      (hbase : ((10 : ℚ) ^ m) ^ e ≤ (2 ^ n) ^ e) : (10 : ℚ) ^ a ≤ 2 ^ e := by
    refine le_of_pow_le_pow_left₀ hn (by positivity) ?_
    calc ((10 : ℚ) ^ a) ^ n = 10 ^ (n * a) := by rw [← zpow_natCast, ← zpow_mul, mul_comm]
      _ ≤ 10 ^ (m * e) := zpow_le_zpow_right₀ (by norm_num) h
      _ = (10 ^ m) ^ e := by rw [zpow_mul, zpow_natCast]
      _ ≤ (2 ^ n) ^ e := hbase
      _ = (2 ^ e) ^ n := by rw [← zpow_natCast, ← zpow_natCast, ← zpow_mul, ← zpow_mul, mul_comm]
  rcases le_or_gt 0 e with h | h
  · exact hpowers (n := 103) (m := 31) (by decide) (hnonneg h)
      (zpow_le_zpow_left₀ h (by positivity) (by norm_num))
  · obtain ⟨k, rfl⟩ : ∃ k : Int, e = -k := ⟨-e, by omega⟩
    refine hpowers (n := 93) (m := 28) (by decide) (hneg h) ?_
    rw [zpow_neg, zpow_neg]
    exact inv_anti₀ (by positivity) (zpow_le_zpow_left₀ (by omega) (by positivity) (by norm_num))

/-- The exponent of the first digit is not too large. -/
theorem ten_zpow_decimalExponent_le {x : Double} (hx : x.isFinite = true) (hzero : x.isZero = false) :
    (10 : ℚ) ^ x.decimalExponent ≤ x.significand * 2 ^ x.scale := by
  have hreaches (e : Int) (h : (gridRatio e x.scale).1 ≤ x.significand * (gridRatio e x.scale).2) :
      (10 : ℚ) ^ e ≤ x.significand * 2 ^ x.scale := by
    have hden : (0 : ℚ) < (gridRatio e x.scale).2 := by exact_mod_cast gridRatio_snd_pos e x.scale
    rw [← div_le_iff₀ (by positivity), ← gridRatio_div, div_le_iff₀ hden]
    exact_mod_cast h
  unfold decimalExponent
  dsimp only
  split
  next h => exact hreaches _ (of_decide_eq_true h)
  next =>
    split
    next h => exact hreaches _ (of_decide_eq_true h)
    next =>
      have hsignificand := significand_pos hzero
      have hbits : (2 : ℚ) ^ x.significand.log2 ≤ x.significand := by
        exact_mod_cast Nat.log2_self_le hsignificand.ne'
      have hlog : x.significand.log2 < 53 := by
        rw [Nat.log2_lt hsignificand.ne']
        exact x.significand_lt
      have hleast := x.scale_ge
      have hgreatest := scale_le hx
      calc (10 : ℚ) ^ ((x.significand.log2 + x.scale) * 78913 / 0x40000 - 1)
          ≤ 2 ^ (x.significand.log2 + x.scale) :=
            ten_zpow_le_two_zpow (fun h => by omega) (fun h => by omega)
        _ = 2 ^ x.significand.log2 * 2 ^ x.scale := by
            rw [zpow_add₀ two_ne_zero, zpow_natCast]
        _ ≤ x.significand * 2 ^ x.scale := by gcongr

/-- On a grid finer than the numbers are apart, a neighbour is inside. -/
theorem inside_nearer (tie : Tie) {x : Double} {unit den : Nat} (hunit : 0 < unit) (hden : 0 < den)
    (hfine : 10 ^ 16 * unit ≤ 4 * (x.significand * den)) :
    x.Inside unit den (nearer tie (4 * x.significand * den) unit) := by
  obtain ⟨hbelow, habove⟩ := nearer_spec tie (4 * x.significand * den) hunit
  have hsignificand : x.significand * den ≤ 9007199254740991 * den :=
    Nat.mul_le_mul_right den (Nat.le_of_lt_succ x.significand_lt)
  have hgap : x.lowerGap den = 2 * den ∨
      x.lowerGap den = den ∧ x.significand * den = 4503599627370496 * den := by
    unfold lowerGap
    split
    next h =>
      have hscale : -1074 < x.scale := by
        unfold scale
        omega
      rw [(fraction_eq_zero_iff hscale).mp h.1]
      exact Or.inr ⟨rfl, rfl⟩
    next => exact Or.inl rfl
  unfold Inside
  rw [mul_assoc] at *
  generalize nearer tie (4 * (x.significand * den)) unit * unit = multiple at *
  generalize x.significand * den = value at *
  split <;> omega

/-- Seventeen digits are enough. -/
theorem isSome_onGrid?_seventeen (tie : Tie) {x : Double} (hx : x.isFinite = true)
    (hzero : x.isZero = false) : (x.onGrid? tie (x.decimalExponent - 16)).isSome = true := by
  have hunit := gridRatio_fst_pos (x.decimalExponent - 16) (x.scale - 2)
  have hden := gridRatio_snd_pos (x.decimalExponent - 16) (x.scale - 2)
  have hratio := gridRatio_div (x.decimalExponent - 16) (x.scale - 2)
  generalize hgrid : gridRatio (x.decimalExponent - 16) (x.scale - 2) = grid at *
  obtain ⟨unit, den⟩ := grid
  refine isSome_onGrid? hgrid (inside_nearer tie hunit hden ?_)
  have hden' : (0 : ℚ) < den := by exact_mod_cast hden
  have hfine : (10 ^ 16 * (unit / den) : ℚ) ≤ 4 * x.significand := by
    have hleast : (10 : ℚ) ^ x.decimalExponent / 2 ^ x.scale ≤ x.significand :=
      (div_le_iff₀ (by positivity)).mpr (ten_zpow_decimalExponent_le hx hzero)
    calc (10 ^ 16 * (unit / den) : ℚ) = 4 * (10 ^ x.decimalExponent / 2 ^ x.scale) := by
          rw [hratio, zpow_sub₀ (by norm_num), zpow_sub₀ (by norm_num)]
          norm_num
          field_simp
      _ ≤ 4 * x.significand := by gcongr
  rw [← mul_div_assoc, div_le_iff₀ hden'] at hfine
  rw [← mul_assoc]
  exact_mod_cast hfine

/-- A finite number other than zero covers its shortest decimal. -/
theorem covers_shortest (tie : Tie) {x : Double} (hx : x.isFinite = true)
    (hzero : x.isZero = false) : x.Covers (x.shortest tie).value := by
  unfold shortest
  rw [hzero]
  simp only [Bool.false_eq_true, if_false]
  split
  next d hd =>
    obtain ⟨k, -, hk⟩ := List.exists_of_findSome?_eq_some hd
    obtain ⟨hplace, hinside⟩ := inside_of_onGrid? hk
    have hcovers : x.Covers d.value := by
      rw [Decimal.value, hplace]
      exact covers_of_inside (gridRatio_snd_pos _ _) (gridRatio_div _ _) hinside
    split
    next hten =>
      have hdigits : (d.digits : ℚ) = (d.digits / 10 : Nat) * 10 := by
        exact_mod_cast (Nat.div_mul_cancel (Nat.dvd_of_mod_eq_zero hten)).symm
      have hvalue : Decimal.value ⟨d.digits / 10, d.exponent + 1⟩ = d.value := by
        rw [Decimal.value, Decimal.value, hdigits, zpow_add_one₀ (by norm_num)]
        ring
      rwa [hvalue]
    next => exact hcovers
  next hnone =>
    have hsome := isSome_onGrid?_seventeen tie hx hzero
    rw [List.findSome?_eq_none_iff] at hnone
    have := hnone 16 (by simp)
    rw [Nat.cast_ofNat] at this
    simp [this] at hsome

/-! Reading decimals. -/

theorem Covers.ge {x : Double} {q : ℚ} (h : x.Covers q) (hzero : x.isZero = false) :
    (2 : ℚ) ^ (-1075 : Int) ≤ q := by
  have hsignificand : (1 : ℚ) ≤ x.significand := by exact_mod_cast significand_pos hzero
  have hhalf : (1 / 2 : ℚ) ≤ q / 2 ^ x.scale := by
    have := h.about.least
    linarith
  rw [le_div_iff₀ (by positivity)] at hhalf
  calc (2 : ℚ) ^ (-1075 : Int) ≤ 2 ^ (x.scale - 1) :=
        zpow_le_zpow_right₀ one_le_two (by have := x.scale_ge; omega)
    _ = 1 / 2 * 2 ^ x.scale := by
        rw [zpow_sub_one₀ two_ne_zero]
        ring
    _ ≤ q := hhalf

theorem Covers.lt {x : Double} {q : ℚ} (h : x.Covers q) (hx : x.isFinite = true) :
    q < (2 : ℚ) ^ (1024 : Int) := by
  have hsignificand : (x.significand : ℚ) + 1 ≤ 2 * hiddenBit := by
    exact_mod_cast x.significand_lt
  have hreach : q / 2 ^ x.scale < 2 ^ (53 : Int) := by
    have := h.about.greatest
    norm_num [hiddenBit] at hsignificand ⊢
    linarith
  rw [div_lt_iff₀ (by positivity), ← zpow_add₀ two_ne_zero] at hreach
  exact hreach.trans_le (zpow_le_zpow_right₀ one_le_two (by have := scale_le hx; omega))

/-- A natural number has as many digits as its size says. -/
theorem length_toDigits_bounds {n : Nat} (h : 0 < n) :
    10 ^ ((Nat.toDigits 10 n).length - 1) ≤ n ∧ n < 10 ^ (Nat.toDigits 10 n).length := by
  have hpos : 0 < (Nat.toDigits 10 n).length := Nat.length_toDigits_pos
  refine ⟨?_, (Nat.length_toDigits_le_iff (by decide) hpos).mp le_rfl⟩
  rcases Nat.eq_zero_or_pos ((Nat.toDigits 10 n).length - 1) with hone | hmore
  · rw [hone]
    exact h
  · by_contra hlt
    have := (Nat.length_toDigits_le_iff (n := n) (by decide) hmore).mpr (not_le.mp hlt)
    omega

/-- The number of its digits tells how large a decimal is. -/
theorem decimal_bounds {digits : Nat} (h : 0 < digits) (exponent : Int) :
    (10 : ℚ) ^ ((Nat.toDigits 10 digits).length + exponent - 1) ≤ digits * 10 ^ exponent ∧
      (digits * 10 ^ exponent : ℚ) < 10 ^ ((Nat.toDigits 10 digits).length + exponent) := by
  obtain ⟨hlow, hhigh⟩ := length_toDigits_bounds h
  have hlength : 0 < (Nat.toDigits 10 digits).length := Nat.length_toDigits_pos
  generalize (Nat.toDigits 10 digits).length = length at *
  have hten : (10 : ℚ) ≠ 0 := by norm_num
  constructor
  · calc (10 : ℚ) ^ (length + exponent - 1) = 10 ^ (length - 1) * 10 ^ exponent := by
          rw [← zpow_natCast, ← zpow_add₀ hten, Nat.cast_pred hlength]
          ring_nf
      _ ≤ digits * 10 ^ exponent := by
          gcongr
          exact_mod_cast hlow
  · calc (digits * 10 ^ exponent : ℚ) < 10 ^ length * 10 ^ exponent := by
          gcongr
          exact_mod_cast hhigh
      _ = 10 ^ (length + exponent) := by rw [zpow_add₀ hten, zpow_natCast]

/-- A decimal that a number covers is neither too large nor too small to be
rounded. -/
theorem Covers.place_bounds {x : Double} {digits : Nat} {exponent : Int} (hx : x.isFinite = true)
    (hzero : x.isZero = false) (hdigits : 0 < digits) (h : x.Covers (digits * 10 ^ exponent)) :
    -330 ≤ (Nat.toDigits 10 digits).length + exponent ∧
      (Nat.toDigits 10 digits).length + exponent ≤ 310 := by
  have hleast := h.ge hzero
  have hgreatest := h.lt hx
  obtain ⟨hlow, hhigh⟩ := decimal_bounds hdigits exponent
  constructor
  · by_contra hfar
    have hpower : (10 : ℚ) ^ (-331 : Int) ≤ 2 ^ (-1075 : Int) :=
      ten_zpow_le_two_zpow (by omega) (by omega)
    have hten : (10 : ℚ) ^ ((Nat.toDigits 10 digits).length + exponent) ≤ 10 ^ (-331 : Int) :=
      zpow_le_zpow_right₀ (by norm_num) (by omega)
    exact lt_irrefl _ (hhigh.trans_le (hten.trans (hpower.trans hleast)))
  · by_contra hfar
    have hpower : (10 : ℚ) ^ (-310 : Int) ≤ 2 ^ (-1024 : Int) :=
      ten_zpow_le_two_zpow (by omega) (by omega)
    rw [zpow_neg, zpow_neg, inv_le_inv₀ (by positivity) (by positivity)] at hpower
    have hten : (10 : ℚ) ^ (310 : Int) ≤
        10 ^ ((Nat.toDigits 10 digits).length + exponent - 1) :=
      zpow_le_zpow_right₀ (by norm_num) (by omega)
    exact lt_irrefl _ (hgreatest.trans_le (hpower.trans (hten.trans hlow)))

/-- A decimal that a number covers is read as that number. -/
theorem ofDecimal_eq {x : Double} {digits : Nat} {exponent : Int} (hx : x.isFinite = true)
    (hzero : x.isZero = false) (h : x.Covers (digits * 10 ^ exponent)) :
    ofDecimal x.isNegative digits exponent = x := by
  have hdigits : 0 < digits := by
    rw [Nat.pos_iff_ne_zero]
    rintro rfl
    have hleast := h.ge hzero
    rw [Nat.cast_zero, zero_mul] at hleast
    exact absurd hleast (not_le.mpr (by positivity))
  obtain ⟨hleast, hgreatest⟩ := h.place_bounds hx hzero hdigits
  unfold ofDecimal
  rw [if_neg hdigits.ne', if_neg (not_lt.mpr hgreatest), if_neg (not_lt.mpr hleast)]
  split
  next hexponent =>
    obtain ⟨n, rfl⟩ := Int.eq_ofNat_of_zero_le hexponent
    apply ofRatio_eq hx (Nat.mul_pos hdigits (Nat.pow_pos (by decide))) (by decide)
    simpa using h
  next hexponent =>
    obtain ⟨n, hn⟩ := Int.eq_ofNat_of_zero_le (by omega : 0 ≤ -exponent)
    obtain rfl : exponent = -(n : Int) := by omega
    apply ofRatio_eq hx hdigits (Nat.pow_pos (by decide))
    simpa [div_eq_mul_inv] using h

end Double

end FieldQuery
