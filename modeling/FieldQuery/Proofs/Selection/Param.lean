import FieldQuery.Proofs.Number.Text
import FieldQuery.Proofs.Text
import FieldQuery.Selection.Param

/-!
Parameters and their texts. A name or a literal is written as its trimmed token,
and a number with digits, a sign and a point, so each is read from its text as
what it was.
-/

namespace FieldQuery

namespace Text

theorem isAlpha_of_isDigit {c : Char} (h : c.isDigit = true) : c.isAlpha = false := by
  have hcodes : ∀ n < 58, 48 ≤ n → (Char.ofNat n).isAlpha = false := by decide
  rw [Char.isDigit_iff_toNat] at h
  have hnot := hcodes c.toNat (Nat.lt_succ_of_le h.2) h.1
  rwa [Char.ofNat_toNat] at hnot

theorem isBlank_of_isDigit {c : Char} (h : c.isDigit = true) : isBlank c = false :=
  isBlank_eq_false (by decide) h

end Text

namespace Param

theorem ofToken_trim (token : List Char) : ofToken (Text.trim token) = ofToken token := by
  simp only [ofToken, Text.trim_trim]

theorem ofToken_blank_cons {c : Char} (h : Text.isBlank c = true) (token : List Char) :
    ofToken (c :: token) = ofToken token := by
  simp only [ofToken, Text.trim_blank_cons h]

/-- A token is written without the blanks around it, unless it is a number. -/
theorem text_ofToken (token : List Char) :
    (ofToken token).text.toList = Text.trim token ∨
      ∃ x : Double, x.isFinite = true ∧ ofToken token = .number x := by
  simp only [ofToken]
  split
  next => exact Or.inl (String.toList_ofList)
  next =>
    split
    next x _ =>
      split
      next hx => exact Or.inr ⟨x, hx, rfl⟩
      next => exact Or.inl (String.toList_ofList)
    next => exact Or.inl (String.toList_ofList)

theorem isFinite_ofToken {token : List Char} {x : Double}
    (h : ofToken token = .number x) : x.isFinite = true := by
  simp only [ofToken] at h
  split at h
  next => simp at h
  next =>
    split at h
    next value _ =>
      split at h
      next hfinite =>
        obtain rfl : value = x := by simpa using h
        exact hfinite
      next => simp at h
    next => simp at h

/-! Tokens of numeric characters. -/

/-- Characters of numerals without exponents. -/
def IsNumeric (c : Char) : Prop := c.isDigit = true ∨ c = '-' ∨ c = '+' ∨ c = '.'

instance (c : Char) : Decidable (IsNumeric c) := inferInstanceAs (Decidable (_ ∨ _))

theorem IsNumeric.isBlank {c : Char} (h : IsNumeric c) : Text.isBlank c = false := by
  rcases h with hdigit | rfl | rfl | rfl
  · exact Text.isBlank_of_isDigit hdigit
  · decide
  · decide
  · decide

theorem IsNumeric.starts_no_name {c : Char} (h : IsNumeric c) :
    (c.isAlpha || c == '_') = false := by
  rcases h with hdigit | rfl | rfl | rfl
  · have hunderscore : c ≠ '_' := by
      rintro rfl
      exact absurd hdigit (by decide)
    simp [Text.isAlpha_of_isDigit hdigit, hunderscore]
  · decide
  · decide
  · decide

theorem not_isIdentifier_of_numeric {text : List Char} (h : ∀ c ∈ text, IsNumeric c) :
    isIdentifier text = false := by
  cases text with
  | nil => rfl
  | cons first rest => simp [isIdentifier, (h first List.mem_cons_self).starts_no_name]

theorem ofToken_of_numeric {text : List Char} (h : ∀ c ∈ text, IsNumeric c) {x : Double}
    (hread : Numeral.double? text = some x) (hx : x.isFinite = true) :
    ofToken text = .number x := by
  have htrim := Text.trim_of_no_blank fun c hc => (h c hc).isBlank
  simp [ofToken, htrim, not_isIdentifier_of_numeric h, hread, hx]

/-! Texts of numbers. -/

theorem isNumeric_of_mem_text {x : Double} (hx : x.isFinite = true) :
    ∀ c ∈ (text (.number x)).toList, IsNumeric c := by
  have hwindow : numberLayout.window = none := rfl
  obtain ⟨whole, fraction, htext, hpositional⟩ := Double.exists_text_eq hwindow hx
  intro c hc
  rw [text, htext, List.mem_append, List.mem_append] at hc
  rcases hc with hc | hc | hc
  · refine Or.inr (Or.inl ?_)
    split at hc
    · exact List.mem_singleton.mp hc
    · simp at hc
  · exact Or.inl (hpositional.digits.isDigit c hc)
  · unfold pointed at hc
    split at hc
    · simp at hc
    · rcases List.mem_cons.mp hc with rfl | hc
      · exact Or.inr (Or.inr (Or.inr rfl))
      · exact Or.inl (hpositional.isDigit c hc)

theorem ofToken_number_text {x : Double} (hx : x.isFinite = true) :
    ofToken (text (.number x)).toList = .number x :=
  ofToken_of_numeric (isNumeric_of_mem_text hx) (Double.double?_text rfl hx) hx

/-- Every parameter is read from its text as it was. -/
theorem ofToken_text (token : List Char) :
    ofToken (ofToken token).text.toList = ofToken token := by
  rcases text_ofToken token with htext | ⟨x, hx, hnumber⟩
  · rw [htext, ofToken_trim]
  · rw [hnumber, ofToken_number_text hx]

/-- What is written for a token adds only what numbers are written with. -/
theorem mem_text_ofToken {token : List Char} {c : Char} (h : c ∈ (ofToken token).text.toList) :
    c ∈ token ∨ IsNumeric c := by
  rcases text_ofToken token with htext | ⟨x, hx, hnumber⟩
  · rw [htext] at h
    exact Or.inl (Text.trim_subset token h)
  · rw [hnumber] at h
    exact Or.inr (isNumeric_of_mem_text hx c h)

/-- Only a blank token is written as a blank text. -/
theorem isBlank_of_text_ofToken {token : List Char}
    (h : ∀ c ∈ (ofToken token).text.toList, Text.isBlank c = true) :
    ∀ c ∈ token, Text.isBlank c = true := by
  rcases text_ofToken token with htext | ⟨x, hx, hnumber⟩
  · apply Text.all_isBlank_of_trim_eq_nil
    rw [← Text.trim_trim, Text.trim, Text.trimStart_eq_nil (by rwa [← htext])]
    rfl
  · rw [hnumber] at h
    have hread : Numeral.double? (text (.number x)).toList = some x := Double.double?_text rfl hx
    cases htext : (text (.number x)).toList with
    | nil =>
        rw [htext] at hread
        exact absurd hread (by simp [Numeral.double?, Numeral.takeSign, Numeral.takeFraction])
    | cons first rest =>
        have hfirst : first ∈ (text (.number x)).toList := by simp [htext]
        have hblank := (isNumeric_of_mem_text hx first hfirst).isBlank
        rw [h first hfirst] at hblank
        exact absurd hblank (by decide)

end Param

end FieldQuery
