import FieldQuery.Json.Raw
import FieldQuery.Json.Text

/-!
Quoted texts. What stands between the quotes reads back as the text that was
quoted, whichever of its characters are escaped.
-/

namespace FieldQuery

namespace RawJson

/-- In front of other parts of a quoted text, the part stands for the character. -/
def Piece.Reads (piece : Piece) (c : Char) : Prop :=
  ∀ pieces, characters? (piece :: pieces) = (characters? pieces).map (c :: ·)

theorem reads_char (c : Char) : (Piece.char c).Reads c := by
  intro pieces
  simp [characters?]

theorem reads_unit {c : Char} (h : c.toNat < 0xd800) : (Piece.unit c.toNat).Reads c := by
  have hhigh : isHighSurrogate c.toNat = false := by
    simp only [isHighSurrogate, Bool.and_eq_false_iff, decide_eq_false_iff_not]
    omega
  have hlow : isLowSurrogate c.toNat = false := by
    simp only [isLowSurrogate, Bool.and_eq_false_iff, decide_eq_false_iff_not]
    omega
  intro pieces
  rw [characters?.eq_def]
  split
  next hnil => cases hnil
  next hchar => cases hchar
  next hunits =>
    obtain ⟨hcode, rfl⟩ := List.cons.inj hunits
    cases hcode
    simp [hhigh, hlow, Char.ofNat_toNat]
  next hunit =>
    obtain ⟨hcode, rfl⟩ := List.cons.inj hunit
    cases hcode
    simp [hhigh, hlow, Char.ofNat_toNat]

end RawJson

namespace Json

open RawJson

theorem hexUnit?_control {n : Nat} (h : n < 0x20) :
    hexUnit? '0' '0' (Text.hexDigit (n / 16)) (Text.hexDigit (n % 16)) = some n := by
  have hhigh := Text.hexValue?_hexDigit (n / 16) (by omega)
  have hlow := Text.hexValue?_hexDigit (n % 16) (by omega)
  have hzero : Text.hexValue? '0' = some 0 := by decide
  simp only [hexUnit?, hhigh, hlow, hzero]
  congr 1
  omega

/-- Puts a part in front of what was taken. -/
abbrev before (piece : Piece) (taken : List Piece × List Char) : List Piece × List Char :=
  (piece :: taken.1, taken.2)

theorem takeQuoted?_letter {letter c : Char} (h : escaped? letter = some c) (text : List Char) :
    takeQuoted? ('\\' :: letter :: text) = (takeQuoted? text).map (before (.char c)) := by
  have hunit : letter ≠ 'u' := by
    rintro rfl
    cases h
  rw [takeQuoted?.eq_4 _ _ (fun _ _ _ _ _ heq _ => hunit heq), h]
  cases takeQuoted? text <;> rfl

theorem takeQuoted?_control {n : Nat} (h : n < 0x20) (text : List Char) :
    takeQuoted? ('\\' :: 'u' :: '0' :: '0' :: Text.hexDigit (n / 16) :: Text.hexDigit (n % 16) ::
      text) = (takeQuoted? text).map (before (.unit n)) := by
  rw [takeQuoted?, hexUnit?_control h]
  cases takeQuoted? text <;> rfl

theorem takeQuoted?_plain {c : Char} (hquote : c ≠ '"') (hslash : c ≠ '\\') (hc : ¬ c.toNat < 0x20)
    (text : List Char) :
    takeQuoted? (c :: text) = (takeQuoted? text).map (before (.char c)) := by
  rw [takeQuoted?.eq_5 _ _ hquote (fun _ _ _ _ _ heq _ => hslash heq)
    (fun _ _ heq _ => hslash heq), if_neg (not_or.mpr ⟨hslash, hc⟩)]
  cases takeQuoted? text <;> rfl

/-- The escape of a character is one part of a quoted text. -/
theorem exists_reads_escape (c : Char) : ∃ piece : Piece, piece.Reads c ∧
    ∀ text, takeQuoted? (escape c ++ text) = (takeQuoted? text).map (before piece) := by
  unfold escape
  split
  next => exact ⟨_, reads_char _, takeQuoted?_letter rfl⟩
  next => exact ⟨_, reads_char _, takeQuoted?_letter rfl⟩
  next => exact ⟨_, reads_char _, takeQuoted?_letter rfl⟩
  next => exact ⟨_, reads_char _, takeQuoted?_letter rfl⟩
  next => exact ⟨_, reads_char _, takeQuoted?_letter rfl⟩
  next => exact ⟨_, reads_char _, takeQuoted?_letter rfl⟩
  next => exact ⟨_, reads_char _, takeQuoted?_letter rfl⟩
  next hquote hslash _ _ _ _ _ =>
    split
    next hc => exact ⟨_, reads_unit (by omega), takeQuoted?_control hc⟩
    next hc => exact ⟨_, reads_char c, takeQuoted?_plain hquote hslash hc⟩

theorem exists_takeQuoted?_escape (s rest : List Char) :
    ∃ pieces, takeQuoted? (s.flatMap escape ++ '"' :: rest) = some (pieces, rest) ∧
      characters? pieces = some s := by
  induction s with
  | nil => exact ⟨[], by simp [takeQuoted?], rfl⟩
  | cons c s ih =>
      obtain ⟨pieces, htaken, hread⟩ := ih
      obtain ⟨piece, hpiece, htake⟩ := exists_reads_escape c
      refine ⟨piece :: pieces, ?_, by rw [hpiece, hread]; rfl⟩
      rw [List.flatMap_cons, List.append_assoc, htake, htaken]
      rfl

/-- The opening quote apart, a quoted text reads as the text. -/
theorem takeString?_quoted (s : String) (rest : List Char) :
    takeString? (s.toList.flatMap escape ++ '"' :: rest) = some (some s, rest) := by
  obtain ⟨pieces, htaken, hread⟩ := exists_takeQuoted?_escape s.toList rest
  simp [takeString?, htaken, hread]

end Json

end FieldQuery
