import FieldQuery.Selection.Basic

/-!
The head of a schema item: an optional label, a name, and optional parameters.
Every reader takes text from the front and hands back the rest.
-/

namespace FieldQuery.Schema

def isNameChar (c : Char) : Bool := Param.isNameChar c || c == '.'

/-- No segment between dots is empty. -/
def isName (text : List Char) : Bool := (Text.split '.' text).all (!·.isEmpty)

/-- Takes the longest run of name characters, which must be a name. -/
def takeName? (text : List Char) : Option (List Char × List Char) :=
  let name := text.takeWhile isNameChar
  if isName name then some (name, text.dropWhile isNameChar) else none

/-- Characters that may stand between a label and its colon. -/
def isGap (c : Char) : Bool := c == ' ' || c == '\t'

/-- Characters that may follow the colon of a label. -/
def isSpacing (c : Char) : Bool := isGap c || c == '\r' || c == '\n'

def takeLabel? (text : List Char) : Option (List Char × List Char) :=
  match takeName? text with
  | none => none
  | some (label, rest) =>
      match rest.dropWhile isGap with
      | ':' :: rest => some (label, rest.dropWhile isSpacing)
      | _ => none

/-- Takes a parenthesised text; parentheses do not nest. -/
def takeParams? : List Char → Option (List Char × List Char)
  | '(' :: text =>
      match text.dropWhile (· != ')') with
      | _ :: rest => some (text.takeWhile (· != ')'), rest)
      | [] => none
  | _ => none

/-- Parameters are separated by commas; a blank text has none. -/
def splitParams (text : List Char) : List Param :=
  if text.all Text.isBlank then [] else (Text.split ',' text).map Param.ofToken

def buildCall (label : Option (List Char)) (name : List Char)
    (params : Option (List Char)) : Call :=
  let c := Call.ofName (String.ofList name)
  let c := match label with
    | some label => c.withLabel (String.ofList label)
    | none => c
  match params with
  | some params => c.withParams (splitParams params)
  | none => c

/-- Takes a call without its group. -/
def takeCall? (text : List Char) : Option (Call × List Char) :=
  let (label, afterLabel) := match takeLabel? text with
    | some (label, rest) => (some label, rest)
    | none => (none, text)
  match takeName? afterLabel with
  | none => none
  | some (name, afterName) =>
      match takeParams? afterName with
      | some (params, rest) => some (buildCall label name (some params), rest)
      | none => some (buildCall label name none, afterName)

theorem length_dropWhile_le (p : Char → Bool) (text : List Char) :
    (text.dropWhile p).length ≤ text.length :=
  (List.dropWhile_sublist p).length_le

theorem takeName?_shorter {text name rest : List Char}
    (h : takeName? text = some (name, rest)) : rest.length < text.length := by
  simp only [takeName?] at h
  split at h
  next hname =>
    obtain ⟨rfl, rfl⟩ := by simpa using h
    cases text with
    | nil => simp [isName, Text.split] at hname
    | cons c tail =>
        by_cases hc : isNameChar c
        · simpa [hc] using Nat.lt_succ_of_le (length_dropWhile_le isNameChar tail)
        · simp [hc, isName, Text.split] at hname
  next => simp at h

theorem takeLabel?_shorter {text label rest : List Char}
    (h : takeLabel? text = some (label, rest)) : rest.length < text.length := by
  unfold takeLabel? at h
  split at h
  next => simp at h
  next name afterName hname =>
    split at h
    next tail htail =>
      obtain ⟨rfl, rfl⟩ := by simpa using h
      have h1 := takeName?_shorter hname
      have h2 := length_dropWhile_le isGap afterName
      have h3 := length_dropWhile_le isSpacing tail
      rw [htail] at h2
      simp at h2
      omega
    next => simp at h

theorem takeParams?_shorter {text params rest : List Char}
    (h : takeParams? text = some (params, rest)) : rest.length < text.length := by
  unfold takeParams? at h
  split at h
  next tail =>
    split at h
    next c rest' hrest =>
      obtain ⟨-, rfl⟩ := by simpa using h
      have := length_dropWhile_le (· != ')') tail
      rw [hrest] at this
      simp at this ⊢
      omega
    next => simp at h
  next => simp at h

theorem takeCall?_shorter {text rest : List Char} {c : Call}
    (h : takeCall? text = some (c, rest)) : rest.length < text.length := by
  have key : ∀ (label : Option (List Char)) (start : List Char), start.length ≤ text.length →
      (match takeName? start with
        | none => none
        | some (name, afterName) =>
            match takeParams? afterName with
            | some (params, rest) => some (buildCall label name (some params), rest)
            | none => some (buildCall label name none, afterName)) = some (c, rest) →
      rest.length < text.length := by
    intro label start hstart h
    split at h
    next => simp at h
    next name afterName hname =>
      have h1 := takeName?_shorter hname
      split at h
      next params rest' hparams =>
        obtain ⟨-, rfl⟩ := by simpa using h
        have h2 := takeParams?_shorter hparams
        omega
      next =>
        obtain ⟨-, rfl⟩ := by simpa using h
        omega
  unfold takeCall? at h
  cases hlabel : takeLabel? text with
  | none => exact key none text (Nat.le_refl _) (by simpa [hlabel] using h)
  | some found =>
      obtain ⟨label, afterLabel⟩ := found
      have := takeLabel?_shorter hlabel
      exact key (some label) afterLabel (by omega) (by simpa [hlabel] using h)

end FieldQuery.Schema
