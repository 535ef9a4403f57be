import FieldQuery.Proofs.Schema.Compile

/-!
Texts that continue what was read. What items spell is settled by what was read
and by whether the text behind it goes on with a name, so another text may take
its place. Texts with blanks between them spell their items in a row.
-/

namespace FieldQuery.Schema

/-- Behind what was read, one text may stand for another: it does not lengthen
a name unless the other does. -/
def Replaces (rest rest' : List Char) : Prop :=
  ∀ c ∈ rest'.head?, isNameChar c = true → c ∈ rest.head?

theorem replaces_of_head {rest' : List Char} (h : ∀ c ∈ rest'.head?, isNameChar c = false)
    (rest : List Char) : Replaces rest rest' := by
  intro c hc hname
  simp [h c hc] at hname

theorem Replaces.append {rest rest' : List Char} (h : Replaces rest rest') (read : List Char) :
    Replaces (read ++ rest) (read ++ rest') := by
  cases read with
  | nil => exact h
  | cons c tail => exact fun d hd _ => hd

theorem NameBefore.replace {name rest rest' : List Char} (h : NameBefore name rest)
    (hrest : Replaces rest rest') : NameBefore name rest' := by
  refine ⟨h.chars, h.segments, ?_⟩
  intro c hc
  rw [Bool.eq_false_iff]
  intro hname
  simp [h.longest c (hrest c hc hname)] at hname

theorem SpellsLabel.replace {label : Option (List Char)} {text rest : List Char}
    (h : SpellsLabel label text rest) :
    ∃ read, text = read ++ rest ∧
      ∀ rest', Replaces rest rest' → SpellsLabel label (read ++ rest') rest' := by
  cases h with
  | absent => exact ⟨[], rfl, fun _ _ => .absent⟩
  | @present label gap spacing _ hname hgap hspacing =>
      refine ⟨label ++ (gap ++ ':' :: spacing), by simp, ?_⟩
      intro rest' hrest
      have hbehind : Replaces (gap ++ ':' :: (spacing ++ rest))
          (gap ++ ':' :: (spacing ++ rest')) := by
        simpa using hrest.append (gap ++ ':' :: spacing)
      simpa using SpellsLabel.present (hname.replace hbehind) hgap hspacing

theorem SpellsParams.replace {params : Option (List Char)} {text rest : List Char}
    (h : SpellsParams params text rest) :
    ∃ read, text = read ++ rest ∧ ∀ rest', SpellsParams params (read ++ rest') rest' := by
  cases h with
  | absent => exact ⟨[], rfl, fun _ => .absent⟩
  | @present params _ hparams =>
      refine ⟨'(' :: (params ++ [')']), by simp, ?_⟩
      intro rest'
      simpa using SpellsParams.present hparams

theorem SpellsHead.replace {label params : Option (List Char)} {name text rest : List Char}
    (h : SpellsHead label name params text rest) :
    ∃ read, text = read ++ rest ∧
      ∀ rest', Replaces rest rest' → SpellsHead label name params (read ++ rest') rest' := by
  obtain ⟨hlabel, hname, hparams⟩ := h
  obtain ⟨readParams, rfl, hgiven⟩ := hparams.replace
  obtain ⟨readLabel, rfl, hlabelled⟩ := hlabel.replace
  refine ⟨readLabel ++ (name ++ readParams), by simp, ?_⟩
  intro rest' hrest
  have hafter := hrest.append readParams
  have hspelled := hlabelled _ (hafter.append name)
  simpa using SpellsHead.head hspelled (hname.replace hafter) (hgiven rest')

mutual

theorem SpellsItem.replace : ∀ {item : Item} {text rest : List Char}, SpellsItem item text rest →
    ∃ read, text = read ++ rest ∧
      ∀ rest', Replaces rest rest' → SpellsItem item (read ++ rest') rest'
  | _, _, _, .item hhead hgroup => by
      obtain ⟨readGroup, rfl, hgrouped⟩ := hgroup.replace
      obtain ⟨readHead, rfl, hheaded⟩ := hhead.replace
      refine ⟨readHead ++ readGroup, by simp, ?_⟩
      intro rest' hrest
      simpa using SpellsItem.item (hheaded _ (hrest.append readGroup)) (hgrouped rest' hrest)

theorem SpellsGroup.replace : ∀ {group : Option (List Item)} {text rest : List Char},
    SpellsGroup group text rest →
    ∃ read, text = read ++ rest ∧
      ∀ rest', Replaces rest rest' → SpellsGroup group (read ++ rest') rest'
  | _, _, _, .absent => ⟨[], rfl, fun _ _ => .absent⟩
  | _, _, rest, @SpellsGroup.present _ before _ after _ hbefore hitems hafter => by
      obtain ⟨read, rfl, hread⟩ := hitems.replace
      refine ⟨before ++ '{' :: (read ++ (after ++ ['}'])), by simp, ?_⟩
      intro rest' _
      have hclose : Replaces (after ++ '}' :: rest) (after ++ '}' :: rest') := by
        cases after with
        | nil => exact fun c hc _ => hc
        | cons d tail => exact fun c hc _ => hc
      simpa using SpellsGroup.present hbefore (hread _ hclose) hafter

theorem SpellsItems.replace : ∀ {items : List Item} {text rest : List Char},
    SpellsItems items text rest →
    ∃ read, text = read ++ rest ∧
      ∀ rest', Replaces rest rest' → SpellsItems items (read ++ rest') rest'
  | _, _, _, .nil => ⟨[], rfl, fun _ _ => .nil⟩
  | _, _, _, @SpellsItems.cons _ _ before _ _ _ hbefore hitem hitems => by
      obtain ⟨readItems, rfl, hmore⟩ := hitems.replace
      obtain ⟨readItem, rfl, hfirst⟩ := hitem.replace
      refine ⟨before ++ (readItem ++ readItems), by simp, ?_⟩
      intro rest' hrest
      simpa using SpellsItems.cons hbefore (hfirst _ (hrest.append readItems)) (hmore rest' hrest)

end

theorem SpellsItems.trans : ∀ {items more : List Item} {text middle rest : List Char},
    SpellsItems items text middle → SpellsItems more middle rest →
    SpellsItems (items ++ more) text rest
  | _, _, _, _, _, .nil, hmore => hmore
  | _, _, _, _, _, .cons hbefore hitem hitems, hmore =>
      .cons hbefore hitem (hitems.trans hmore)

/-! Texts in a row. -/

theorem AllBlank.append {first second : List Char} (hfirst : AllBlank first)
    (hsecond : AllBlank second) : AllBlank (first ++ second) := by
  intro c hc
  rcases List.mem_append.mp hc with hc | hc
  · exact hfirst c hc
  · exact hsecond c hc

theorem AllBlank.head_not_name {blank : List Char} (h : AllBlank blank) :
    ∀ c ∈ blank.head?, isNameChar c = false := by
  intro c hc
  exact isNameChar_of_isBlank (h c (List.mem_of_mem_head? hc))

/-- Blanks in front of a text change nothing. -/
theorem Spells.blank {items : List Item} {text before : List Char} (h : Spells items text)
    (hbefore : AllBlank before) : Spells items (before ++ text) := by
  obtain ⟨after, hitems, hafter⟩ := h
  cases hitems with
  | nil => exact ⟨before ++ text, .nil, hbefore.append hafter⟩
  | @cons item items blank text afterItem _ hblank hitem hitems =>
      have hspelled := SpellsItems.cons (hbefore.append hblank) hitem hitems
      exact ⟨after, by simpa using hspelled, hafter⟩

/-- Two texts with blanks between them spell the items of both. -/
theorem Spells.append {items more : List Item} {text next blank : List Char}
    (h : Spells items text) (hnext : Spells more next) (hblank : AllBlank blank)
    (hne : blank ≠ []) : Spells (items ++ more) (text ++ blank ++ next) := by
  obtain ⟨after, hitems, hafter⟩ := h
  obtain ⟨read, rfl, hread⟩ := hitems.replace
  have hbetween : AllBlank (after ++ blank) := hafter.append hblank
  obtain ⟨rest, hmore, hrest⟩ := hnext.blank hbetween
  have hhead : ∀ c ∈ ((after ++ blank) ++ next).head?, isNameChar c = false := by
    intro c hc
    apply hbetween.head_not_name
    cases hcons : after ++ blank with
    | nil => simp [hne] at hcons
    | cons d tail => simpa [hcons] using hc
  have hspelled := (hread _ (replaces_of_head hhead after)).trans hmore
  exact ⟨rest, by simpa using hspelled, hrest⟩

end FieldQuery.Schema
