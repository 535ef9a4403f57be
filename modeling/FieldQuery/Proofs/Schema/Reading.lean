import FieldQuery.Proofs.Schema.Grammar
import FieldQuery.Proofs.Text

/-!
The readers of names, labels, parameters and heads of items against the
grammar. Reading is greedy and the grammar is not: a head reads as the grammar
has it where nothing follows that would lengthen it.
-/

namespace FieldQuery.Schema

/-- No blank is a letter or a digit of any script. -/
theorem isNameChar_of_isBlank {c : Char} (h : Text.isBlank c = true) : isNameChar c = false :=
  Text.eq_false_of_isBlank (by decide +kernel) h

theorem isBlank_of_isNameChar {c : Char} (h : isNameChar c = true) : Text.isBlank c = false := by
  rw [Bool.eq_false_iff]
  intro hblank
  rw [isNameChar_of_isBlank hblank] at h
  exact absurd h (by decide)

theorem isBlank_of_isSpacing {c : Char} (h : isSpacing c = true) : Text.isBlank c = true := by
  simp only [isSpacing, isGap, Bool.or_eq_true, beq_iff_eq] at h
  rcases h with (((rfl | rfl) | rfl) | rfl) <;> decide

theorem isBlank_of_isGap {c : Char} (h : isGap c = true) : Text.isBlank c = true :=
  isBlank_of_isSpacing (by simp [isSpacing, h])

/-! Names. -/

theorem NameBefore.of_all {name rest : List Char} {c : Char} (hchars : name.all isNameChar = true)
    (hsegments : ∀ segment ∈ Text.split '.' name, segment ≠ []) (hc : isNameChar c = false) :
    NameBefore name (c :: rest) where
  chars := List.all_eq_true.mp hchars
  segments := hsegments
  longest := by simpa using hc

theorem NameBefore.exists_cons {name rest : List Char} (h : NameBefore name rest) :
    ∃ c tail, name = c :: tail ∧ isNameChar c = true := by
  cases name with
  | nil => exact absurd rfl (h.segments [] (by simp [Text.split]))
  | cons c tail => exact ⟨c, tail, rfl, h.chars c List.mem_cons_self⟩

theorem NameBefore.head_not_spacing {name rest : List Char} (h : NameBefore name rest)
    (text : List Char) : ∀ c ∈ (name ++ text).head?, isSpacing c = false := by
  obtain ⟨c, tail, rfl, hc⟩ := h.exists_cons
  intro d hd
  obtain rfl : c = d := by simpa using hd
  rw [Bool.eq_false_iff]
  intro hspace
  have hblank := isBlank_of_isNameChar hc
  simp [isBlank_of_isSpacing hspace] at hblank

theorem dropWhile_of_head {p : Char → Bool} {text : List Char}
    (h : ∀ c ∈ text.head?, p c = false) : text.dropWhile p = text := by
  cases text with
  | nil => rfl
  | cons c tail => simp [h c rfl]

theorem takeName?_eq {name rest : List Char} (h : NameBefore name rest) :
    takeName? (name ++ rest) = some (name, rest) := by
  have htake : (name ++ rest).takeWhile isNameChar = name := by
    rw [List.takeWhile_append_of_pos h.chars]
    cases rest with
    | nil => simp
    | cons c tail => simp [h.longest c rfl]
  have hdrop : (name ++ rest).dropWhile isNameChar = rest := by
    rw [List.dropWhile_append_of_pos h.chars, dropWhile_of_head h.longest]
  have hname : isName name = true := by
    simpa [isName] using h.segments
  rw [takeName?, htake, hdrop, if_pos hname]

theorem nameBefore_of_takeName? {text name rest : List Char}
    (h : takeName? text = some (name, rest)) : text = name ++ rest ∧ NameBefore name rest := by
  simp only [takeName?] at h
  split at h
  next hname =>
    obtain ⟨rfl, rfl⟩ := by simpa using h
    refine ⟨List.takeWhile_append_dropWhile.symm, ?_, ?_, ?_⟩
    · intro c hc
      exact List.mem_takeWhile_imp hc
    · simpa [isName] using hname
    · intro c hc
      have hhead := List.head?_dropWhile_not isNameChar text
      rw [Option.mem_def.mp hc] at hhead
      simpa using hhead
  next => simp at h

/-! Labels and parameters. -/

theorem isBlank_colon : Text.isBlank ':' = false := by decide

theorem isBlank_paren : Text.isBlank '(' = false := by decide

theorem isGap_colon : isGap ':' = false := by decide

theorem takeLabel?_eq {label gap spacing rest : List Char}
    (hlabel : NameBefore label (gap ++ ':' :: (spacing ++ rest)))
    (hgap : ∀ c ∈ gap, isGap c = true) (hspacing : ∀ c ∈ spacing, isSpacing c = true)
    (hrest : ∀ c ∈ rest.head?, isSpacing c = false) :
    takeLabel? (label ++ (gap ++ ':' :: (spacing ++ rest))) = some (label, rest) := by
  have hcolon : (gap ++ ':' :: (spacing ++ rest)).dropWhile isGap = ':' :: (spacing ++ rest) := by
    rw [List.dropWhile_append_of_pos hgap]
    simp [isGap_colon]
  have hdrop : (spacing ++ rest).dropWhile isSpacing = rest := by
    rw [List.dropWhile_append_of_pos hspacing, dropWhile_of_head hrest]
  simp only [takeLabel?, takeName?_eq hlabel, hcolon, hdrop]

theorem takeLabel?_eq_none {name rest : List Char} (hname : NameBefore name rest)
    (hrest : ∀ c ∈ (rest.dropWhile isGap).head?, c ≠ ':') : takeLabel? (name ++ rest) = none := by
  simp only [takeLabel?, takeName?_eq hname]
  split
  next tail htail => exact absurd rfl (hrest ':' (by simp [htail]))
  next => rfl

theorem spellsLabel_of_takeLabel? {text label rest : List Char}
    (h : takeLabel? text = some (label, rest)) : SpellsLabel (some label) text rest := by
  unfold takeLabel? at h
  split at h
  next => simp at h
  next name afterName hname =>
    obtain ⟨rfl, hbefore⟩ := nameBefore_of_takeName? hname
    split at h
    next tail htail =>
      obtain ⟨rfl, rfl⟩ := by simpa using h
      have hafter : afterName = afterName.takeWhile isGap ++ ':' ::
          (tail.takeWhile isSpacing ++ tail.dropWhile isSpacing) := by
        rw [List.takeWhile_append_dropWhile, ← htail, List.takeWhile_append_dropWhile]
      rw [hafter] at hbefore ⊢
      exact .present hbefore (fun _ => List.mem_takeWhile_imp) (fun _ => List.mem_takeWhile_imp)
    next => simp at h

theorem takeParams?_eq {params rest : List Char} (h : ')' ∉ params) :
    takeParams? ('(' :: (params ++ ')' :: rest)) = some (params, rest) := by
  have hpos : ∀ c ∈ params, (c != ')') = true := by
    intro c hc
    rw [bne_iff_ne]
    rintro rfl
    exact h hc
  have hdrop : (params ++ ')' :: rest).dropWhile (· != ')') = ')' :: rest := by
    rw [List.dropWhile_append_of_pos hpos]
    simp
  have htake : (params ++ ')' :: rest).takeWhile (· != ')') = params := by
    rw [List.takeWhile_append_of_pos hpos]
    simp
  simp only [takeParams?, hdrop, htake]

theorem takeParams?_eq_none {rest : List Char} (h : ∀ c ∈ rest.head?, c ≠ '(') :
    takeParams? rest = none := by
  unfold takeParams?
  split
  next => exact absurd rfl (h '(' rfl)
  next => rfl

theorem spellsParams_of_takeParams? {text params rest : List Char}
    (h : takeParams? text = some (params, rest)) : SpellsParams (some params) text rest := by
  unfold takeParams? at h
  split at h
  next tail =>
    split at h
    next c rest' hrest =>
      obtain ⟨rfl, rfl⟩ := by simpa using h
      have hc : c = ')' := by
        have hhead := List.head?_dropWhile_not (· != ')') tail
        simpa [hrest] using hhead
      subst hc
      have hnot : ')' ∉ tail.takeWhile (· != ')') := by
        intro hmem
        have hne := List.mem_takeWhile_imp hmem
        simp at hne
      have htail : tail = tail.takeWhile (· != ')') ++ ')' :: rest' := by
        rw [← hrest, List.takeWhile_append_dropWhile]
      have hspelled : SpellsParams (some (tail.takeWhile (· != ')')))
          ('(' :: (tail.takeWhile (· != ')') ++ ')' :: rest')) rest' := .present hnot
      rwa [← htail] at hspelled
    next => simp at h
  next => simp at h

/-! Heads of items. -/

theorem buildCall_eq (label : Option (List Char)) (name : List Char)
    (params : Option (List Char)) : buildCall label name params = headCall label name params := by
  cases label with
  | none => cases params <;> rfl
  | some label =>
      have hsame : (String.ofList label = String.ofList name) ↔ (some label = some name) := by
        simp [String.ofList_inj]
      by_cases heq : some label = some name
      · cases params <;>
          simp [buildCall, headCall, Call.withLabel, Call.withParams, Call.ofName, heq, hsame]
      · cases params <;>
          simp [buildCall, headCall, Call.withLabel, Call.withParams, Call.ofName, heq, hsame]

/-- Reads what follows the label of an item. -/
def takeUnlabelled? (label : Option (List Char)) (text : List Char) :
    Option (Call × List Char) :=
  match takeName? text with
  | none => none
  | some (name, afterName) =>
      match takeParams? afterName with
      | some (params, rest) => some (headCall label name (some params), rest)
      | none => some (headCall label name none, afterName)

theorem takeCall?_eq_of_label (text : List Char) :
    takeCall? text =
      match takeLabel? text with
      | some (label, rest) => takeUnlabelled? (some label) rest
      | none => takeUnlabelled? none text := by
  unfold takeCall? takeUnlabelled?
  simp only [buildCall_eq]
  cases takeLabel? text <;> rfl

theorem exists_headCall_of_takeUnlabelled? {label : Option (List Char)} {text rest : List Char}
    {c : Call} (h : takeUnlabelled? label text = some (c, rest)) :
    ∃ name params, c = headCall label name params := by
  unfold takeUnlabelled? at h
  split at h
  next => simp at h
  next name afterName _ =>
    split at h
    next params rest' _ =>
      obtain ⟨rfl, -⟩ := by simpa using h
      exact ⟨name, some params, rfl⟩
    next =>
      obtain ⟨rfl, -⟩ := by simpa using h
      exact ⟨name, none, rfl⟩

theorem exists_headCall_of_takeCall? {text rest : List Char} {c : Call}
    (h : takeCall? text = some (c, rest)) :
    ∃ label name params, c = headCall label name params := by
  rw [takeCall?_eq_of_label] at h
  split at h
  next label _ _ => exact ⟨some label, exists_headCall_of_takeUnlabelled? h⟩
  next => exact ⟨none, exists_headCall_of_takeUnlabelled? h⟩

/-- Text after a head that could not have been read as part of it. -/
def Follows (rest : List Char) : Prop := ∀ c ∈ (Text.trimStart rest).head?, c ≠ ':' ∧ c ≠ '('

theorem Follows.head_ne_paren {rest : List Char} (h : Follows rest) :
    ∀ c ∈ rest.head?, c ≠ '(' := by
  intro c hc
  rintro rfl
  obtain ⟨tail, rfl⟩ := List.head?_eq_some_iff.mp hc
  have := h '(' (by rw [Text.trimStart_cons isBlank_paren]; rfl)
  exact this.2 rfl

theorem Follows.gap_ne_colon {rest : List Char} (h : Follows rest) :
    ∀ c ∈ (rest.dropWhile isGap).head?, c ≠ ':' := by
  intro c hc
  rintro rfl
  obtain ⟨tail, htail⟩ := List.head?_eq_some_iff.mp hc
  have hrest : rest = rest.takeWhile isGap ++ ':' :: tail := by
    rw [← htail, List.takeWhile_append_dropWhile]
  have hgap : ∀ d ∈ rest.takeWhile isGap, Text.isBlank d = true := by
    intro d hd
    exact isBlank_of_isGap (List.mem_takeWhile_imp hd)
  have htrim : Text.trimStart rest = ':' :: tail := by
    rw [hrest, Text.trimStart_append hgap, Text.trimStart_cons isBlank_colon]
  exact (h ':' (by rw [htrim]; rfl)).1 rfl

theorem takeUnlabelled?_eq {label params : Option (List Char)} {name afterName rest : List Char}
    (hname : NameBefore name afterName) (hparams : SpellsParams params afterName rest)
    (hrest : Follows rest) :
    takeUnlabelled? label (name ++ afterName) = some (headCall label name params, rest) := by
  simp only [takeUnlabelled?, takeName?_eq hname]
  cases hparams with
  | absent => rw [takeParams?_eq_none hrest.head_ne_paren]
  | present hparen => rw [takeParams?_eq hparen]

/-- No label can be read where the grammar has none: after the name come
parameters, or text that does not begin with a colon. -/
theorem takeLabel?_eq_none_of_head {params : Option (List Char)} {name afterName rest : List Char}
    (hname : NameBefore name afterName) (hparams : SpellsParams params afterName rest)
    (hrest : Follows rest) : takeLabel? (name ++ afterName) = none := by
  apply takeLabel?_eq_none hname
  cases hparams with
  | absent => exact hrest.gap_ne_colon
  | present =>
      intro c hc
      rintro rfl
      simp [isGap] at hc

theorem SpellsHead.takeCall?_eq {label params : Option (List Char)} {name text rest : List Char}
    (h : SpellsHead label name params text rest) (hrest : Follows rest) :
    takeCall? text = some (headCall label name params, rest) := by
  obtain ⟨hlabel, hname, hparams⟩ := h
  rw [takeCall?_eq_of_label]
  cases hlabel with
  | absent =>
      rw [takeLabel?_eq_none_of_head hname hparams hrest]
      exact takeUnlabelled?_eq hname hparams hrest
  | present hbefore hgap hspacing =>
      rw [takeLabel?_eq hbefore hgap hspacing (hname.head_not_spacing _)]
      exact takeUnlabelled?_eq hname hparams hrest

theorem spellsHead_of_takeUnlabelled? {label : Option (List Char)} {text start rest : List Char}
    {c : Call} (hlabel : SpellsLabel label text start)
    (h : takeUnlabelled? label start = some (c, rest)) :
    ∃ name params, SpellsHead label name params text rest := by
  unfold takeUnlabelled? at h
  split at h
  next => simp at h
  next name afterName hname =>
    obtain ⟨rfl, hbefore⟩ := nameBefore_of_takeName? hname
    split at h
    next params rest' hparams =>
      obtain ⟨-, rfl⟩ := by simpa using h
      exact ⟨name, some params, .head hlabel hbefore (spellsParams_of_takeParams? hparams)⟩
    next =>
      obtain ⟨-, rfl⟩ := by simpa using h
      exact ⟨name, none, .head hlabel hbefore .absent⟩

theorem spellsHead_of_takeCall? {text rest : List Char} {c : Call}
    (h : takeCall? text = some (c, rest)) :
    ∃ label name params, SpellsHead label name params text rest := by
  rw [takeCall?_eq_of_label] at h
  split at h
  next label start hlabel =>
    exact ⟨some label, spellsHead_of_takeUnlabelled? (spellsLabel_of_takeLabel? hlabel) h⟩
  next => exact ⟨none, spellsHead_of_takeUnlabelled? .absent h⟩

/-- Items begin with a character of a name. -/
theorem SpellsHead.exists_cons {label params : Option (List Char)} {name text rest : List Char}
    (h : SpellsHead label name params text rest) :
    ∃ c tail, text = c :: tail ∧ isNameChar c = true := by
  obtain ⟨hlabel, hname, -⟩ := h
  cases hlabel with
  | absent =>
      obtain ⟨c, tail, rfl, hc⟩ := hname.exists_cons
      exact ⟨c, _, rfl, hc⟩
  | present hbefore =>
      obtain ⟨c, tail, rfl, hc⟩ := hbefore.exists_cons
      exact ⟨c, _, rfl, hc⟩

end FieldQuery.Schema
