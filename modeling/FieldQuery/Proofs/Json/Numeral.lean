import FieldQuery.Json.Numeral
import FieldQuery.Json.Text
import FieldQuery.Proofs.Number.Text

/-!
The texts of numbers in documents. Every number that a document holds is
written as a numeral: the reader takes the whole of it, whatever comes behind,
as long as that does not lengthen the numeral. Which number it then reads is
another matter.
-/

namespace FieldQuery

namespace Json

/-! Parts of numerals. -/

/-- Digits of an integer, which begin with a zero only if that stands alone. -/
structure IsWhole (text : List Char) : Prop extends Digits text where
  noLeadingZero : ∀ c tail, text ≠ '0' :: c :: tail

/-- Nothing, or a point and digits. -/
inductive IsFraction : List Char → Prop
  | absent : IsFraction []
  | present {digits : List Char} : Digits digits → IsFraction ('.' :: digits)

/-- Nothing, or an exponent with its sign. -/
inductive IsExponent : List Char → Prop
  | absent : IsExponent []
  | present {sign : Char} {digits : List Char} : (sign = '+' ∨ sign = '-') → Digits digits →
      IsExponent ('e' :: sign :: digits)

/-- Text that does not lengthen a numeral. -/
def EndsNumeral (rest : List Char) : Prop :=
  ∀ c ∈ rest.head?, c.isDigit = false ∧ c ≠ '.' ∧ c ≠ 'e' ∧ c ≠ 'E'

/-- The text is read as a numeral, whatever comes behind. -/
def IsNumeral (text : List Char) : Prop :=
  ∃ lexeme, ∀ rest, EndsNumeral rest → takeLexeme? (text ++ rest) = some (lexeme, rest)

theorem takeDigits_append {digits rest : List Char} (h : ∀ c ∈ digits, c.isDigit = true)
    (hrest : ∀ c ∈ rest.head?, c.isDigit = false) :
    takeDigits (digits ++ rest) = (digits, rest) := by
  rw [takeDigits, ← List.span_eq_takeWhile_dropWhile, Numeral.span_digits h hrest]

theorem IsWhole.take {whole : List Char} (h : IsWhole whole) {rest : List Char}
    (hrest : ∀ c ∈ rest.head?, c.isDigit = false) :
    takeWhole? (whole ++ rest) = some (whole, rest) := by
  rw [takeWhole?, takeDigits_append h.isDigit hrest]
  split
  next hnil => exact absurd (congrArg Prod.fst hnil) h.ne_nil
  next hzero => exact absurd (congrArg Prod.fst hzero) (h.noLeadingZero _ _)
  next => rfl

theorem IsFraction.take {fraction : List Char} (h : IsFraction fraction) :
    ∃ read, ∀ rest : List Char, (∀ c ∈ rest.head?, c.isDigit = false ∧ c ≠ '.') →
      takeFraction? (fraction ++ rest) = some (read, rest) := by
  cases h with
  | absent =>
      refine ⟨none, fun rest hrest => ?_⟩
      rw [List.nil_append]
      unfold takeFraction?
      split
      next => exact absurd rfl (hrest '.' rfl).2
      next => rfl
  | @present digits hdigits =>
      refine ⟨some digits, fun rest hrest => ?_⟩
      rw [List.cons_append, takeFraction?,
        takeDigits_append hdigits.isDigit fun c hc => (hrest c hc).1]
      split
      next hnil => exact absurd (congrArg Prod.fst hnil) hdigits.ne_nil
      next htaken =>
        cases htaken
        rfl

theorem IsExponent.take {exponent : List Char} (h : IsExponent exponent) :
    ∃ read, ∀ rest : List Char, EndsNumeral rest →
      takeExponent? (exponent ++ rest) = some (read, rest) := by
  cases h with
  | absent =>
      refine ⟨none, fun rest hrest => ?_⟩
      rw [List.nil_append]
      unfold takeExponent?
      split
      next => exact absurd rfl (hrest 'e' rfl).2.2.1
      next => exact absurd rfl (hrest 'E' rfl).2.2.2
      next => rfl
  | @present sign digits hsign hdigits =>
      have htaken (rest : List Char) (hrest : EndsNumeral rest) :
          takeDigits (digits ++ rest) = (digits, rest) :=
        takeDigits_append hdigits.isDigit fun c hc => (hrest c hc).1
      cases digits with
      | nil => exact absurd rfl hdigits.ne_nil
      | cons first tail =>
          rcases hsign with rfl | rfl
          · refine ⟨some (Numeral.digitsValue (first :: tail)), fun rest hrest => ?_⟩
            simp only [List.cons_append, takeExponent?, Numeral.takeSign]
            rw [← List.cons_append, htaken rest hrest]
            rfl
          · refine ⟨some (-Numeral.digitsValue (first :: tail)), fun rest hrest => ?_⟩
            simp only [List.cons_append, takeExponent?, Numeral.takeSign]
            rw [← List.cons_append, htaken rest hrest]
            rfl

theorem IsFraction.head {fraction : List Char} (h : IsFraction fraction) {rest : List Char}
    (hrest : ∀ c ∈ rest.head?, c.isDigit = false) :
    ∀ c ∈ (fraction ++ rest).head?, c.isDigit = false := by
  cases h with
  | absent => exact hrest
  | present =>
      intro c hc
      obtain rfl : '.' = c := by simpa using hc
      decide

theorem IsExponent.head {exponent : List Char} (h : IsExponent exponent) {rest : List Char}
    (hrest : EndsNumeral rest) :
    ∀ c ∈ (exponent ++ rest).head?, c.isDigit = false ∧ c ≠ '.' := by
  cases h with
  | absent => exact fun c hc => ⟨(hrest c hc).1, (hrest c hc).2.1⟩
  | present =>
      intro c hc
      obtain rfl : 'e' = c := by simpa using hc
      decide

/-- Parts in a row are read as a numeral, with or without a minus. -/
theorem isNumeral_of_parts {whole fraction exponent : List Char} (negative : Bool)
    (hwhole : IsWhole whole) (hfraction : IsFraction fraction) (hexponent : IsExponent exponent) :
    IsNumeral ((if negative then ['-'] else []) ++ (whole ++ (fraction ++ exponent))) := by
  obtain ⟨readFraction, htakeFraction⟩ := hfraction.take
  obtain ⟨readExponent, htakeExponent⟩ := hexponent.take
  refine ⟨⟨negative, whole, readFraction, readExponent⟩, fun rest hrest => ?_⟩
  have hafter := hexponent.head hrest
  have htake : takeWhole? (whole ++ (fraction ++ (exponent ++ rest))) =
      some (whole, fraction ++ (exponent ++ rest)) :=
    hwhole.take (hfraction.head fun c hc => (hafter c hc).1)
  have hsign : ∀ tail, whole ++ (fraction ++ (exponent ++ rest)) ≠ '-' :: tail := by
    intro tail heq
    obtain ⟨first, digits, rfl⟩ := List.exists_cons_of_ne_nil hwhole.ne_nil
    obtain ⟨rfl, -⟩ := List.cons.inj heq
    exact absurd (hwhole.isDigit '-' List.mem_cons_self) (by decide)
  cases negative with
  | true =>
      simp [takeLexeme?, htake, htakeFraction _ hafter, htakeExponent _ hrest]
  | false =>
      simp only [Bool.false_eq_true, if_false, List.nil_append, List.append_assoc]
      unfold takeLexeme?
      split
      next heq =>
        split at heq
        next htail => exact absurd htail (hsign _)
        next =>
          cases heq
          simp [htake, htakeFraction _ hafter, htakeExponent _ hrest]

/-! Texts of decimals. -/

theorem isWhole_digit {c : Char} (h : c.isDigit = true) : IsWhole [c] where
  ne_nil := by simp
  isDigit := by simpa using h
  noLeadingZero := by simp

theorem isWhole_cons {first : Char} {tail : List Char} (hfirst : first ≠ '0')
    (h : Digits (first :: tail)) : IsWhole (first :: tail) where
  toDigits := h
  noLeadingZero _ _ heq := hfirst (List.cons.inj heq).1

theorem isFraction_pointed {fraction : List Char} (h : ∀ c ∈ fraction, c.isDigit = true) :
    IsFraction (pointed fraction) := by
  unfold pointed
  split
  next => exact .absent
  next hne => exact .present ⟨hne, h⟩

/-- Without an exponent, a decimal is written as whole and fractional digits. -/
theorem isNumeral_positional {d : Decimal} (hd : d = ⟨0, 0⟩ ∨ 0 < d.digits) (negative : Bool) :
    IsNumeral ((if negative then ['-'] else []) ++ d.positional true) := by
  obtain ⟨whole, fraction, heq, hpositional⟩ := Decimal.exists_positional hd true
  have hparts := isNumeral_of_parts negative ⟨hpositional.digits, hpositional.noLeadingZero⟩
    (isFraction_pointed hpositional.isDigit) .absent
  rwa [heq, ← List.append_nil (pointed fraction)]

/-- With an exponent, a decimal is written as one digit, further digits behind
a point, and the exponent. -/
theorem isNumeral_scientific (d : Decimal) (negative : Bool) :
    IsNumeral ((if negative then ['-'] else []) ++ d.scientific) := by
  have hdigits : Digits d.digitText := digits_toDigits d.digits
  have hexponent : IsExponent ('e' :: (if 0 ≤ d.leadingExponent then '+' else '-') ::
      Nat.toDigits 10 d.leadingExponent.natAbs) :=
    .present (by split <;> simp) (digits_toDigits _)
  suffices h : ∃ whole fraction, d.scientific = whole ++ (fraction ++ ('e' ::
      (if 0 ≤ d.leadingExponent then '+' else '-') ::
        Nat.toDigits 10 d.leadingExponent.natAbs)) ∧ IsWhole whole ∧ IsFraction fraction by
    obtain ⟨whole, fraction, heq, hwhole, hfraction⟩ := h
    rw [heq]
    exact isNumeral_of_parts negative hwhole hfraction hexponent
  unfold Decimal.scientific
  split
  next first second rest heq =>
    rw [heq] at hdigits
    have hall := List.forall_mem_cons.mp hdigits.isDigit
    exact ⟨[first], '.' :: second :: rest, by simp, isWhole_digit hall.1,
      .present ⟨by simp, hall.2⟩⟩
  next hsingle =>
    obtain ⟨first, tail, hcons⟩ := List.exists_cons_of_ne_nil hdigits.ne_nil
    cases tail with
    | nil =>
        refine ⟨[first], [], by simp [hcons], isWhole_digit (hdigits.isDigit first ?_), .absent⟩
        simp [hcons]
    | cons second rest => exact absurd hcons (hsingle first second rest)

/-! Texts of numbers. -/

theorem isNumeral_toDigits (n : Nat) (negative : Bool) :
    IsNumeral ((if negative then ['-'] else []) ++ Nat.toDigits 10 n) := by
  have hwhole : IsWhole (Nat.toDigits 10 n) := by
    cases n with
    | zero => exact isWhole_digit (by decide)
    | succ n =>
        obtain ⟨first, tail, hcons, hfirst⟩ := exists_toDigits_eq_cons n.succ_pos
        have hdigits := digits_toDigits (n + 1)
        rw [hcons] at hdigits ⊢
        exact isWhole_cons hfirst hdigits
  simpa using isNumeral_of_parts negative hwhole .absent .absent

theorem toList_toString_int (n : Int) : (toString n).toList =
    (if decide (n < 0) then ['-'] else []) ++ Nat.toDigits 10 n.natAbs := by
  cases n with
  | ofNat n =>
      change (Nat.repr n).toList = _
      simp [Nat.repr]
  | negSucc n =>
      change ("-" ++ Nat.repr (n + 1)).toList = _
      simp [Nat.repr, Int.negSucc_lt_zero]

theorem isNumeral_float {x : Double} (h : x.isFinite = true) :
    IsNumeral (x.text numberLayout).toList := by
  have hnan : x.isNaN = false := by simp [Double.isNaN, h]
  have hsign : (if x.isNegative then "-" else "").toList =
      if x.isNegative then ['-'] else [] := by
    split <;> rfl
  have hlayout (plain : Bool) : IsNumeral ((if x.isNegative then ['-'] else []) ++
      if plain then (x.shortest .toEven).positional true else (x.shortest .toEven).scientific) := by
    cases plain with
    | true => exact isNumeral_positional (Double.shortest_cases _ h) _
    | false => exact isNumeral_scientific _ _
  simp only [Double.text, hnan, h, Bool.false_eq_true, if_false, Bool.not_true,
    String.toList_append, String.toList_ofList, hsign]
  exact hlayout _

/-- A number of a document is written as a numeral. -/
theorem isNumeral_numberText (n : JsonNumber) : IsNumeral (numberText n).toList := by
  cases n with
  | int n =>
      rw [numberText, toList_toString_int]
      exact isNumeral_toDigits _ _
  | float x => exact isNumeral_float x.finite

/-- A numeral begins with a minus or a digit. -/
theorem head_of_takeLexeme? {text rest : List Char} {n : Lexeme}
    (h : takeLexeme? text = some (n, rest)) :
    ∃ c tail, text = c :: tail ∧ (c = '-' ∨ c.isDigit = true) := by
  cases text with
  | nil => cases h
  | cons c tail =>
      refine ⟨c, tail, rfl, ?_⟩
      by_cases hminus : c = '-'
      · exact Or.inl hminus
      · refine Or.inr ?_
        by_contra hdigit
        have hwhole : takeWhole? (c :: tail) = none := by
          simp [takeWhole?, takeDigits, hdigit]
        unfold takeLexeme? at h
        split at h
        next heq =>
          split at heq
          next htext => exact hminus (List.cons.inj htext).1
          next =>
            cases heq
            rw [hwhole] at h
            cases h

/-- The number that the text of a number is read as, if it is in range. It need
not be the same number. -/
def reread (n : JsonNumber) : Option JsonNumber :=
  (takeLexeme? (numberText n).toList).bind (·.1.value?)

theorem takeLexeme?_numberText (n : JsonNumber) : ∃ lexeme, lexeme.value? = reread n ∧
    ∀ rest, EndsNumeral rest →
      takeLexeme? ((numberText n).toList ++ rest) = some (lexeme, rest) := by
  obtain ⟨lexeme, htake⟩ := isNumeral_numberText n
  refine ⟨lexeme, ?_, htake⟩
  have halone := htake [] (by simp [EndsNumeral])
  rw [List.append_nil] at halone
  simp [reread, halone]

theorem numberText_head (n : JsonNumber) :
    ∃ c tail, (numberText n).toList = c :: tail ∧ (c = '-' ∨ c.isDigit = true) := by
  obtain ⟨lexeme, -, htake⟩ := takeLexeme?_numberText n
  have halone := htake [] (by simp [EndsNumeral])
  rw [List.append_nil] at halone
  exact head_of_takeLexeme? halone

end Json

end FieldQuery
