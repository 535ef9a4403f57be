import FieldQuery.Proofs.Json.Numeral
import FieldQuery.Proofs.Json.Quoted
import FieldQuery.Proofs.Text

/-!
The text of a document is read as the document, except that a number is
whatever its text is read as. The steps that the reader is given suffice: each
level of nesting and each sibling takes one, and both take a character.
-/

namespace FieldQuery

namespace Json

mutual

/-- The raw document that the text of a document is read as. -/
def raw : Json → RawJson
  | .null => .null
  | .bool b => .bool b
  | .number n => .number (reread n)
  | .string s => .string (some s)
  | .array items => .array (rawItems items)
  | .object members => .object (rawMembers members)

def rawItems : List Json → List RawJson
  | [] => []
  | v :: rest => raw v :: rawItems rest

def rawMembers : List (String × Json) → List (Option String × RawJson)
  | [] => []
  | (key, v) :: rest => (some key, raw v) :: rawMembers rest

end

end Json

namespace RawJson

open Json

/-! Beginnings of documents. -/

/-- A character that a document can begin with. -/
structure Opens (c : Char) : Prop where
  notSpace : isSpace c = false
  notBracket : c ≠ ']'

theorem opens_numeral {c : Char} (h : c = '-' ∨ c.isDigit = true) : Opens c where
  notSpace := by
    rcases h with rfl | h
    · decide
    · by_contra hspace
      simp only [isSpace, Bool.not_eq_false, Bool.or_eq_true, beq_iff_eq] at hspace
      rcases hspace with ((rfl | rfl) | rfl) | rfl <;> exact absurd h (by decide)
  notBracket := by
    rintro rfl
    rcases h with h | h <;> exact absurd h (by decide)

theorem quote_eq (s : String) :
    (quote s).toList = '"' :: (s.toList.flatMap escape ++ ['"']) := by
  simp [quote]

theorem exists_opens (v : Json) : ∃ c tail, v.text.toList = c :: tail ∧ Opens c := by
  cases v with
  | null => exact ⟨'n', _, rfl, by decide, by decide⟩
  | bool b => cases b <;> exact ⟨_, _, rfl, by decide, by decide⟩
  | number n =>
      obtain ⟨c, tail, htext, hc⟩ := numberText_head n
      exact ⟨c, tail, htext, opens_numeral hc⟩
  | string s => exact ⟨'"', _, by rw [text, quote_eq], by decide, by decide⟩
  | array items => exact ⟨'[', _, by rw [text]; simp; rfl, by decide, by decide⟩
  | object members => exact ⟨'{', _, by rw [text]; simp; rfl, by decide, by decide⟩

theorem skipSpace_cons {c : Char} (h : isSpace c = false) (tail : List Char) :
    skipSpace (c :: tail) = c :: tail := by
  simp [skipSpace, h]

theorem take?_numeral {c : Char} (h : c = '-' ∨ c.isDigit = true) (steps : Nat)
    (tail : List Char) : take? (steps + 1) (c :: tail) =
      (takeLexeme? (c :: tail)).map fun (n, rest) => (.number n.value?, rest) := by
  rw [take?, skipSpace_cons (opens_numeral h).notSpace]
  split
  case h_7 => rfl
  all_goals
    next heq =>
      obtain ⟨rfl, -⟩ := List.cons.inj heq
      exact absurd h (by decide)

/-! Reading back. -/

/-- Enough steps read the text of a document as its raw document, whatever
comes behind. -/
def ReadsBack (v : Json) : Prop :=
  ∀ steps rest, v.text.toList.length ≤ steps → EndsNumeral rest →
    take? (steps + 1) (v.text.toList ++ rest) = some (v.raw, rest)

theorem readsBack_number (n : JsonNumber) : ReadsBack (.number n) := by
  intro steps rest _ hrest
  obtain ⟨lexeme, hvalue, htake⟩ := takeLexeme?_numberText n
  obtain ⟨c, tail, hhead, hc⟩ := numberText_head n
  have htaken := htake rest hrest
  rw [hhead, List.cons_append] at htaken
  rw [text, hhead, List.cons_append, take?_numeral hc, htaken]
  simp [raw, hvalue]

theorem readsBack_string (s : String) : ReadsBack (.string s) := by
  intro steps rest _ _
  rw [text, quote_eq, List.cons_append, List.append_assoc, List.singleton_append, take?,
    skipSpace_cons (by decide)]
  simp [takeString?_quoted, raw]

theorem endsNumeral_cons {c : Char} (hdigit : c.isDigit = false)
    (hc : c ≠ '.' ∧ c ≠ 'e' ∧ c ≠ 'E') (rest : List Char) : EndsNumeral (c :: rest) := by
  intro d hd
  obtain rfl : c = d := by simpa using hd
  exact ⟨hdigit, hc⟩

section Items

variable {v : Json} {steps : Nat}

theorem takeItems?_last (hv : ReadsBack v) (hsteps : v.text.toList.length ≤ steps)
    (rest : List Char) :
    takeItems? (steps + 2) (v.text.toList ++ ']' :: rest) = some ([v.raw], rest) := by
  have htake := hv steps (']' :: rest) hsteps (endsNumeral_cons (by decide) (by decide) rest)
  rw [takeItems?, htake]
  simp [skipSpace, isSpace]

theorem takeItems?_next (hv : ReadsBack v) (hsteps : v.text.toList.length ≤ steps)
    {text rest : List Char} {items : List RawJson}
    (h : takeItems? (steps + 1) text = some (items, rest)) :
    takeItems? (steps + 2) (v.text.toList ++ ',' :: text) = some (v.raw :: items, rest) := by
  have htake := hv steps (',' :: text) hsteps (endsNumeral_cons (by decide) (by decide) text)
  rw [takeItems?, htake]
  simp [skipSpace, isSpace, h]

end Items

/-- Items are read up to the closing bracket. -/
theorem takeItems?_itemTexts {items : List Json} (hitems : items ≠ [])
    (hread : ∀ v ∈ items, ReadsBack v) (steps : Nat) (rest : List Char)
    (hsteps : (Text.join "," (itemTexts items)).toList.length ≤ steps) :
    takeItems? (steps + 2) ((Text.join "," (itemTexts items)).toList ++ ']' :: rest) =
      some (rawItems items, rest) := by
  induction items generalizing steps with
  | nil => exact absurd rfl hitems
  | cons v others ih =>
      obtain ⟨hv, hothers⟩ := List.forall_mem_cons.mp hread
      cases others with
      | nil => exact takeItems?_last hv hsteps rest
      | cons w others =>
          have hjoin : (Text.join "," (itemTexts (v :: w :: others))).toList = v.text.toList ++
              ',' :: (Text.join "," (itemTexts (w :: others))).toList :=
            Text.toList_join_cons _ _ _ _
          rw [hjoin] at hsteps ⊢
          simp only [List.length_append, List.length_cons] at hsteps
          obtain ⟨steps, rfl⟩ : ∃ fewer, steps = fewer + 1 := ⟨steps - 1, by omega⟩
          rw [List.append_assoc, List.cons_append]
          exact takeItems?_next hv (by omega) (ih (by simp) hothers steps (by omega))

section Members

variable {key : String} {v : Json} {steps : Nat}

theorem memberText_eq (key : String) (v : Json) (rest : List Char) :
    (quote key ++ ":" ++ v.text).toList ++ rest =
      '"' :: (key.toList.flatMap escape ++ '"' :: ':' :: (v.text.toList ++ rest)) := by
  simp [quote_eq]

theorem takeMembers?_last (hv : ReadsBack v)
    (hsteps : (quote key ++ ":" ++ v.text).toList.length ≤ steps) (rest : List Char) :
    takeMembers? (steps + 2) ((quote key ++ ":" ++ v.text).toList ++ '\x7d' :: rest) =
      some ([(some key, v.raw)], rest) := by
  rw [String.toList_append, List.length_append] at hsteps
  have htake := hv steps ('\x7d' :: rest) (by omega)
    (endsNumeral_cons (by decide) (by decide) rest)
  rw [memberText_eq, takeMembers?, skipSpace_cons (by decide)]
  simp [takeString?_quoted, htake, skipSpace, isSpace]

theorem takeMembers?_next (hv : ReadsBack v)
    (hsteps : (quote key ++ ":" ++ v.text).toList.length ≤ steps) {text rest : List Char}
    {members : List (Option String × RawJson)}
    (h : takeMembers? (steps + 1) text = some (members, rest)) :
    takeMembers? (steps + 2) ((quote key ++ ":" ++ v.text).toList ++ ',' :: text) =
      some ((some key, v.raw) :: members, rest) := by
  rw [String.toList_append, List.length_append] at hsteps
  have htake := hv steps (',' :: text) (by omega)
    (endsNumeral_cons (by decide) (by decide) text)
  rw [memberText_eq, takeMembers?, skipSpace_cons (by decide)]
  simp [takeString?_quoted, htake, skipSpace, isSpace, h]

end Members

/-- Members are read up to the closing brace. -/
theorem takeMembers?_memberTexts {members : List (String × Json)} (hmembers : members ≠ [])
    (hread : ∀ key v, (key, v) ∈ members → ReadsBack v) (steps : Nat) (rest : List Char)
    (hsteps : (Text.join "," (memberTexts members)).toList.length ≤ steps) :
    takeMembers? (steps + 2) ((Text.join "," (memberTexts members)).toList ++ '\x7d' :: rest) =
      some (rawMembers members, rest) := by
  induction members generalizing steps with
  | nil => exact absurd rfl hmembers
  | cons m others ih =>
      obtain ⟨key, v⟩ := m
      have hv : ReadsBack v := hread key v List.mem_cons_self
      cases others with
      | nil => exact takeMembers?_last hv hsteps rest
      | cons w others =>
          have hjoin : (Text.join "," (memberTexts ((key, v) :: w :: others))).toList =
              (quote key ++ ":" ++ v.text).toList ++
                ',' :: (Text.join "," (memberTexts (w :: others))).toList :=
            Text.toList_join_cons _ _ _ _
          rw [hjoin, List.length_append, List.length_cons] at hsteps
          rw [hjoin, List.append_assoc, List.cons_append]
          obtain ⟨steps, rfl⟩ : ∃ fewer, steps = fewer + 1 := ⟨steps - 1, by omega⟩
          refine takeMembers?_next hv (by omega) (ih (by simp) ?_ steps (by omega))
          exact fun key v h => hread key v (List.mem_cons_of_mem _ h)

theorem readsBack_array {items : List Json} (hread : ∀ v ∈ items, ReadsBack v) :
    ReadsBack (.array items) := by
  intro steps rest hsteps _
  cases items with
  | nil => simp [text, itemTexts, Text.join, take?, skipSpace, isSpace, raw, rawItems]
  | cons v others =>
      have htext : (text (.array (v :: others))).toList =
          '[' :: ((Text.join "," (itemTexts (v :: others))).toList ++ [']']) := by
        simp [text]
      rw [htext] at hsteps ⊢
      simp only [List.length_append, List.length_cons, List.length_nil] at hsteps
      obtain ⟨steps, rfl⟩ : ∃ fewer, steps = fewer + 2 := ⟨steps - 2, by omega⟩
      have htake := takeItems?_itemTexts (by simp) hread steps rest (by omega)
      -- No item begins with the bracket that would close an empty array.
      obtain ⟨c, tail, hhead, hc⟩ := exists_opens v
      obtain ⟨more, hmore⟩ : ∃ more, (Text.join "," (itemTexts (v :: others))).toList ++
          ']' :: rest = c :: more := by
        cases others with
        | nil => exact ⟨_, by simp [itemTexts, Text.join, hhead]; rfl⟩
        | cons w others => exact ⟨_, by simp [itemTexts, Text.join, hhead]; rfl⟩
      rw [hmore] at htake
      rw [List.cons_append, List.append_assoc, List.singleton_append, hmore, take?,
        skipSpace_cons (by decide)]
      simp only [skipSpace_cons hc.notSpace]
      split
      next hclosed => exact absurd (List.cons.inj hclosed).1 hc.notBracket
      next => rw [htake]; rfl

theorem readsBack_object {members : List (String × Json)}
    (hread : ∀ key v, (key, v) ∈ members → ReadsBack v) : ReadsBack (.object members) := by
  intro steps rest hsteps _
  cases members with
  | nil => simp [text, memberTexts, Text.join, take?, skipSpace, isSpace, raw, rawMembers]
  | cons m others =>
      have htext : (text (.object (m :: others))).toList =
          '\x7b' :: ((Text.join "," (memberTexts (m :: others))).toList ++ ['\x7d']) := by
        simp [text]
      rw [htext] at hsteps ⊢
      simp only [List.length_append, List.length_cons, List.length_nil] at hsteps
      obtain ⟨steps, rfl⟩ : ∃ fewer, steps = fewer + 2 := ⟨steps - 2, by omega⟩
      have htake := takeMembers?_memberTexts (by simp) hread steps rest (by omega)
      obtain ⟨more, hmore⟩ : ∃ more, (Text.join "," (memberTexts (m :: others))).toList ++
          '\x7d' :: rest = '"' :: more := by
        cases others with
        | nil => exact ⟨_, by simp [memberTexts, Text.join, quote_eq]; rfl⟩
        | cons w others => exact ⟨_, by simp [memberTexts, Text.join, quote_eq]; rfl⟩
      rw [hmore] at htake
      rw [List.cons_append, List.append_assoc, List.singleton_append, hmore, take?,
        skipSpace_cons (by decide)]
      simp [skipSpace_cons, isSpace, htake, raw]

theorem readsBack : (v : Json) → ReadsBack v
  | .null => by
      intro steps rest _ _
      simp [text, take?, skipSpace, isSpace, raw]
  | .bool b => by
      intro steps rest _ _
      cases b <;> simp [text, take?, skipSpace, isSpace, raw]
  | .number n => readsBack_number n
  | .string s => readsBack_string s
  | .array items => readsBack_array fun v _ => readsBack v
  | .object members => readsBack_object fun key v h =>
      have hsize : sizeOf v < sizeOf members :=
        Nat.lt_of_le_of_lt (by simp) (List.sizeOf_lt_of_mem h)
      readsBack v

/-- The text of a document is read whole. -/
theorem parse?_text (v : Json) : parse? v.text.toList = some v.raw := by
  have htake := readsBack v v.text.toList.length [] (Nat.le_refl _) (by simp [EndsNumeral])
  rw [List.append_nil] at htake
  simp [parse?, htake, skipSpace]

end RawJson

end FieldQuery
