import FieldQuery.Number.Numeral
import FieldQuery.Proofs.Number.Shortest
import Mathlib.Tactic.IntervalCases

/-!
The texts of numbers. A decimal without an exponent is written as digits with a
point in their place, and a numeral of that form is read as the decimal again.
So a finite number comes back from its text.
-/

namespace FieldQuery

/-! Digits. -/

/-- One digit or more. -/
structure Digits (text : List Char) : Prop where
  ne_nil : text ≠ []
  isDigit : ∀ c ∈ text, c.isDigit = true

theorem Digits.append_all {text more : List Char} (h : Digits text)
    (hmore : ∀ c ∈ more, c.isDigit = true) : Digits (text ++ more) :=
  ⟨by simp [h.ne_nil], List.forall_mem_append.mpr ⟨h.isDigit, hmore⟩⟩

theorem Digits.head_ne_sign {text : List Char} (h : Digits text) (more : List Char) :
    ∀ c ∈ (text ++ more).head?, c ≠ '-' ∧ c ≠ '+' := by
  obtain ⟨first, tail, rfl⟩ := List.exists_cons_of_ne_nil h.ne_nil
  intro c hc
  obtain rfl : first = c := by simpa using hc
  have hdigit := h.isDigit first List.mem_cons_self
  constructor
  · rintro rfl
    exact absurd hdigit (by decide)
  · rintro rfl
    exact absurd hdigit (by decide)

theorem digits_toDigits (n : Nat) : Digits (Nat.toDigits 10 n) where
  ne_nil := Nat.toDigits_ne_nil
  isDigit _ hc := Nat.isDigit_of_mem_toDigits (by decide) (by decide) hc

theorem isDigit_zeros (n : Nat) : ∀ c ∈ List.replicate n '0', c.isDigit = true := by
  intro c hc
  rw [List.eq_of_mem_replicate hc]
  decide

/-- Only zero begins with a zero. -/
theorem eq_zero_of_toDigits {n : Nat} {tail : List Char} (h : Nat.toDigits 10 n = '0' :: tail) :
    n = 0 := by
  induction n using Nat.strongRecOn generalizing tail with
  | ind n ih =>
      by_cases hn : n < 10
      · rw [Nat.toDigits_of_lt_base hn] at h
        obtain ⟨hdigit, -⟩ := List.cons.inj h
        revert hdigit
        interval_cases n <;> decide
      · rw [Nat.toDigits_of_base_le (by decide) (by omega)] at h
        obtain ⟨first, rest, hcons⟩ := List.exists_cons_of_ne_nil
          (Nat.toDigits_ne_nil (n := n / 10) (b := 10))
        rw [hcons] at h
        obtain ⟨rfl, -⟩ := List.cons.inj h
        have := ih (n / 10) (by omega) hcons
        omega

theorem exists_toDigits_eq_cons {n : Nat} (h : 0 < n) :
    ∃ first tail, Nat.toDigits 10 n = first :: tail ∧ first ≠ '0' := by
  obtain ⟨first, tail, hcons⟩ := List.exists_cons_of_ne_nil (digits_toDigits n).ne_nil
  refine ⟨first, tail, hcons, ?_⟩
  rintro rfl
  exact h.ne' (eq_zero_of_toDigits hcons)

namespace Numeral

theorem digitsValue_eq (text : List Char) : digitsValue text = Nat.ofDigitChars 10 text 0 := rfl

@[simp] theorem digitsValue_toDigits (n : Nat) : digitsValue (Nat.toDigits 10 n) = n :=
  Nat.ofDigitChars_ten_toDigits

theorem digitsValue_append_zeros (text : List Char) (n : Nat) :
    digitsValue (text ++ List.replicate n '0') = 10 ^ n * digitsValue text := by
  simp [digitsValue_eq, Nat.ofDigitChars_append]

theorem digitsValue_zeros_append (text : List Char) (n : Nat) :
    digitsValue (List.replicate n '0' ++ text) = digitsValue text := by
  simp [digitsValue_eq, Nat.ofDigitChars_append]

end Numeral

/-! Decimals without an exponent. -/

/-- Digits behind a point, or nothing. -/
def pointed (fraction : List Char) : List Char :=
  if fraction = [] then [] else '.' :: fraction

/-- A decimal as digits before a point and digits behind it. -/
structure Decimal.Positional (d : Decimal) (whole fraction : List Char) : Prop where
  digits : Digits whole
  noLeadingZero : ∀ c tail, whole ≠ '0' :: c :: tail
  isDigit : ∀ c ∈ fraction, c.isDigit = true
  value_eq : (Numeral.digitsValue (whole ++ fraction) : ℚ) * 10 ^ (-(fraction.length : Int)) =
    d.value

namespace Decimal

variable {d : Decimal}

theorem digits_digitText (d : Decimal) : Digits d.digitText := digits_toDigits d.digits

theorem digitsValue_digitText (d : Decimal) : Numeral.digitsValue d.digitText = d.digits :=
  Numeral.digitsValue_toDigits d.digits

/-- No digits of a decimal other than zero begin with a zero. -/
theorem ne_zero_cons (hd : 0 < d.digits) {text : List Char}
    (h : text.head? = d.digitText.head?) : ∀ c tail, text ≠ '0' :: c :: tail := by
  rintro c tail rfl
  obtain ⟨first, rest, hcons, hfirst⟩ := exists_toDigits_eq_cons hd
  rw [digitText, hcons] at h
  exact hfirst (Option.some.inj h).symm

/-- An integer gets a zero behind the point if the layout asks for one. -/
theorem positional_of_whole {whole : List Char} (pointZero : Bool) (hdigits : Digits whole)
    (hzero : ∀ c tail, whole ≠ '0' :: c :: tail)
    (hvalue : (Numeral.digitsValue whole : ℚ) = d.value) :
    ∃ fraction, (if pointZero then ['.', '0'] else []) = pointed fraction ∧
      d.Positional whole fraction := by
  cases pointZero with
  | false => exact ⟨[], rfl, hdigits, hzero, by simp, by simpa using hvalue⟩
  | true =>
      refine ⟨['0'], rfl, hdigits, hzero, by simp, ?_⟩
      have htenfold := Numeral.digitsValue_append_zeros whole 1
      rw [List.replicate_one] at htenfold
      rw [htenfold, ← hvalue]
      push_cast
      simp [mul_comm]

/-- The point stands behind all digits. -/
theorem positional_behind (hd : 0 < d.digits) {zeros : Nat} (hzeros : d.exponent = zeros)
    (pointZero : Bool) : ∃ fraction, (if pointZero then ['.', '0'] else []) = pointed fraction ∧
      d.Positional (d.digitText ++ List.replicate zeros '0') fraction := by
  have hdigits := d.digits_digitText.append_all (isDigit_zeros zeros)
  have hhead : (d.digitText ++ List.replicate zeros '0').head? = d.digitText.head? :=
    List.head?_append_of_ne_nil _ d.digits_digitText.ne_nil
  refine positional_of_whole pointZero hdigits (ne_zero_cons hd hhead) ?_
  rw [Numeral.digitsValue_append_zeros, digitsValue_digitText, value, hzeros]
  push_cast
  rw [zpow_natCast, mul_comm]

/-- The point stands behind the first digit or farther on, and before the last. -/
theorem positional_among (hd : 0 < d.digits) (hexponent : d.exponent < 0) {place : Nat}
    (hplace : d.digitText.length + d.exponent = (place + 1 : Nat)) :
    d.Positional (d.digitText.take (place + 1)) (d.digitText.drop (place + 1)) := by
  have hlength : (d.digitText.drop (place + 1)).length = d.digitText.length - (place + 1) :=
    List.length_drop
  have hhead : (d.digitText.take (place + 1)).head? = d.digitText.head? := by
    rw [List.head?_take, if_neg place.succ_ne_zero]
  refine ⟨⟨?_, ?_⟩, ne_zero_cons hd hhead, ?_, ?_⟩
  · simp [d.digits_digitText.ne_nil]
  · exact fun c hc => d.digits_digitText.isDigit c (List.mem_of_mem_take hc)
  · exact fun c hc => d.digits_digitText.isDigit c (List.mem_of_mem_drop hc)
  · rw [List.take_append_drop, digitsValue_digitText, value, hlength]
    congr 2
    omega

/-- The point stands before all digits. -/
theorem positional_before {zeros : Nat}
    (hzeros : -(d.digitText.length + d.exponent) = (zeros : Int)) :
    d.Positional ['0'] (List.replicate zeros '0' ++ d.digitText) := by
  have hdigits : ∀ c ∈ List.replicate zeros '0' ++ d.digitText, c.isDigit = true :=
    List.forall_mem_append.mpr ⟨isDigit_zeros zeros, d.digits_digitText.isDigit⟩
  refine ⟨digits_toDigits 0, by simp, hdigits, ?_⟩
  rw [← List.append_assoc, List.singleton_append, ← List.replicate_succ,
    Numeral.digitsValue_zeros_append, digitsValue_digitText, value, List.length_append,
    List.length_replicate]
  congr 2
  omega

theorem exists_positional (hd : d = ⟨0, 0⟩ ∨ 0 < d.digits) (pointZero : Bool) :
    ∃ whole fraction, d.positional pointZero = whole ++ pointed fraction ∧
      d.Positional whole fraction := by
  rcases hd with rfl | hd
  · obtain ⟨fraction, hfraction, hpositional⟩ := positional_of_whole (d := ⟨0, 0⟩) pointZero
      (digits_toDigits 0) (by simp) (by rw [Numeral.digitsValue_toDigits]; simp [value])
    exact ⟨_, fraction, by rw [← hfraction]; rfl, hpositional⟩
  · unfold positional
    dsimp only
    split
    next hexponent =>
      obtain ⟨zeros, hzeros⟩ := Int.eq_ofNat_of_zero_le hexponent
      obtain ⟨fraction, hfraction, hpositional⟩ := positional_behind hd hzeros pointZero
      exact ⟨_, fraction, by rw [hzeros, Int.toNat_natCast, hfraction], hpositional⟩
    next hexponent =>
      split
      next hpoint =>
        obtain ⟨place, hplace⟩ : ∃ n : Nat, d.digitText.length + d.exponent = (n + 1 : Nat) :=
          ⟨(d.digitText.length + d.exponent - 1).toNat, by omega⟩
        have hne : d.digitText.drop (place + 1) ≠ [] :=
          List.ne_nil_of_length_pos (by rw [List.length_drop]; omega)
        rw [hplace, Int.toNat_natCast]
        exact ⟨_, _, by rw [pointed, if_neg hne], positional_among hd (by omega) hplace⟩
      next hpoint =>
        obtain ⟨zeros, hzeros⟩ : ∃ n : Nat, -(d.digitText.length + d.exponent) = (n : Int) :=
          Int.eq_ofNat_of_zero_le (by omega)
        have hne : List.replicate zeros '0' ++ d.digitText ≠ [] := by
          simp [d.digits_digitText.ne_nil]
        rw [hzeros, Int.toNat_natCast]
        exact ⟨_, _, by rw [pointed, if_neg hne]; rfl, positional_before hzeros⟩

end Decimal

/-! Reading numerals. -/

namespace Numeral

theorem span_digits {digits rest : List Char} (h : ∀ c ∈ digits, c.isDigit = true)
    (hrest : ∀ c ∈ rest.head?, c.isDigit = false) :
    (digits ++ rest).span Char.isDigit = (digits, rest) := by
  have hend : rest.takeWhile Char.isDigit = [] ∧ rest.dropWhile Char.isDigit = rest := by
    cases rest with
    | nil => simp
    | cons c tail => simp [hrest c rfl]
  rw [List.span_eq_takeWhile_dropWhile, List.takeWhile_append_of_pos h,
    List.dropWhile_append_of_pos h, hend.1, hend.2, List.append_nil]

theorem takeSign_append {text : List Char} (negative : Bool)
    (h : ∀ c ∈ text.head?, c ≠ '-' ∧ c ≠ '+') :
    takeSign ((if negative then ['-'] else []) ++ text) = (negative, text) := by
  cases negative with
  | true => rfl
  | false =>
      rw [if_neg (by decide), List.nil_append]
      unfold takeSign
      split
      next => exact absurd rfl (h '-' rfl).1
      next => exact absurd rfl (h '+' rfl).2
      next => rfl

/-- A numeral without an exponent is read as the decimal of its digits. -/
theorem double?_eq {whole fraction : List Char} (negative : Bool) (hwhole : Digits whole)
    (hfraction : ∀ c ∈ fraction, c.isDigit = true) :
    double? ((if negative then ['-'] else []) ++ (whole ++ pointed fraction)) =
      some (.ofDecimal negative (digitsValue (whole ++ fraction)) (-fraction.length)) := by
  have hpoint : ∀ c ∈ (pointed fraction).head?, c.isDigit = false := by
    unfold pointed
    split <;> simp
  unfold double?
  rw [takeSign_append negative (hwhole.head_ne_sign _)]
  simp only [span_digits hwhole.isDigit hpoint]
  by_cases h : fraction = []
  · subst h
    simp [pointed, takeFraction, exponent?, hwhole.ne_nil]
  · have hspan : (fraction ++ []).span Char.isDigit = (fraction, []) :=
      span_digits hfraction (by simp)
    rw [List.append_nil] at hspan
    simp only [pointed, if_neg h, takeFraction, hspan, exponent?]
    simp [h]

end Numeral

namespace Double

/-- The shortest decimal of a finite number has digits other than zero, or is
zero. -/
theorem shortest_cases (tie : Tie) {x : Double} (hx : x.isFinite = true) :
    x.shortest tie = ⟨0, 0⟩ ∨ 0 < (x.shortest tie).digits := by
  cases hzero : x.isZero with
  | true => exact Or.inl (by simp [shortest, hzero])
  | false =>
      refine Or.inr (Nat.pos_of_ne_zero fun hdigits => ?_)
      have hleast := (covers_shortest tie hx hzero).ge hzero
      rw [Decimal.value, hdigits, Nat.cast_zero, zero_mul] at hleast
      exact absurd hleast (not_le.mpr (by positivity))

theorem eq_zero_of_isZero {x : Double} (h : x.isZero = true) : x = zero x.isNegative := by
  have hmagnitude : x.magnitude = 0 := by
    simp only [isZero, Bool.and_eq_true, beq_iff_eq] at h
    rw [magnitude_eq]
    simp [scale, significand, h.1, h.2]
  rw [zero, ← hmagnitude, ofMagnitude_magnitude]

/-- The text of a finite number in a layout without exponents. -/
theorem toList_text {layout : Layout} {x : Double} (hlayout : layout.window = none)
    (hx : x.isFinite = true) : (x.text layout).toList =
      (if x.isNegative then ['-'] else []) ++
        (x.shortest layout.tie).positional layout.pointZero := by
  have hnan : x.isNaN = false := by simp [isNaN, hx]
  have hsign : (if x.isNegative then "-" else "").toList =
      if x.isNegative then ['-'] else [] := by
    split <;> rfl
  simp [text, hnan, hx, hlayout, hsign]

/-- A finite number is written as digits with a point, and read back. -/
theorem exists_text_eq {layout : Layout} {x : Double} (hlayout : layout.window = none)
    (hx : x.isFinite = true) : ∃ whole fraction, (x.text layout).toList =
      (if x.isNegative then ['-'] else []) ++ (whole ++ pointed fraction) ∧
        (x.shortest layout.tie).Positional whole fraction := by
  obtain ⟨whole, fraction, htext, hpositional⟩ :=
    Decimal.exists_positional (shortest_cases layout.tie hx) layout.pointZero
  exact ⟨whole, fraction, by rw [toList_text hlayout hx, htext], hpositional⟩

/-- A finite number is read back from its text. -/
theorem double?_text {layout : Layout} {x : Double} (hlayout : layout.window = none)
    (hx : x.isFinite = true) : Numeral.double? (x.text layout).toList = some x := by
  obtain ⟨whole, fraction, htext, hpositional⟩ := exists_text_eq hlayout hx
  rw [htext, Numeral.double?_eq _ hpositional.digits hpositional.isDigit, Option.some.injEq]
  have hvalue := hpositional.value_eq
  cases hzero : x.isZero with
  | true =>
      have hdigits : Numeral.digitsValue (whole ++ fraction) = 0 := by
        have hnone : (x.shortest layout.tie).value = 0 := by simp [shortest, hzero, Decimal.value]
        rw [hnone] at hvalue
        have hpower : (10 : ℚ) ^ (-(fraction.length : Int)) ≠ 0 := by positivity
        exact_mod_cast (mul_eq_zero.mp hvalue).resolve_right hpower
      rw [hdigits, ofDecimal, if_pos rfl]
      exact (eq_zero_of_isZero hzero).symm
  | false =>
      apply ofDecimal_eq hx hzero
      rw [hvalue]
      exact covers_shortest layout.tie hx hzero

end Double

end FieldQuery
