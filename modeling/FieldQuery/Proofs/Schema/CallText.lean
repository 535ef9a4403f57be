import FieldQuery.Proofs.Schema.Head

/-!
The text of a call. A label that repeats the name is not written, parameters are
written with a comma and a space between them, and what was read from a schema
is compiled again from that text, without its group.
-/

namespace FieldQuery

namespace Schema

theorem isNameChar_colon : isNameChar ':' = false := by decide

theorem isNameChar_paren : isNameChar '(' = false := by decide

/-! Lists of parameters. -/

/-- Parameters as they are written between parentheses. -/
def paramsText (params : List Param) : List Char :=
  (Text.join ", " (params.map Param.text)).toList

/-- A character that no number is written with appears in the text of
parameters only if it was in the text that they were read from. -/
theorem not_mem_paramsText {raw : List Char} {c : Char} (hraw : c ∉ raw)
    (hnumber : ¬ Param.IsNumeric c) (hseparator : c ≠ ',' ∧ c ≠ ' ') :
    c ∉ paramsText (splitParams raw) := by
  intro hc
  rcases Text.mem_join hc with hc | ⟨piece, hpiece, hc⟩
  · have hcases : c = ',' ∨ c = ' ' := by simpa using hc
    exact hcases.elim hseparator.1 hseparator.2
  · obtain ⟨param, hparam, rfl⟩ := List.mem_map.mp hpiece
    unfold splitParams at hparam
    split at hparam
    next => simp at hparam
    next =>
      obtain ⟨token, htoken, rfl⟩ := List.mem_map.mp hparam
      rcases Param.mem_text_ofToken hc with hc | hc
      · exact hraw (Text.mem_of_mem_split htoken hc).1
      · exact hnumber hc

theorem comma_not_mem_text {raw token : List Char} (h : token ∈ Text.split ',' raw) :
    ',' ∉ (Param.ofToken token).text.toList := by
  intro hc
  rcases Param.mem_text_ofToken hc with hc | hc
  · exact (Text.mem_of_mem_split h hc).2 rfl
  · exact absurd hc (by decide)

/-- Parameters that are there are not written as a blank text. A text of one
token has no comma, so it is blank only if the token is. -/
theorem not_blank_paramsText {raw : List Char} (h : raw.all Text.isBlank = false) :
    (paramsText (splitParams raw)).all Text.isBlank = false := by
  rw [Bool.eq_false_iff] at h ⊢
  intro hblank
  have hsplit : splitParams raw = (Text.split ',' raw).map Param.ofToken := if_neg h
  rw [List.all_eq_true] at hblank
  by_cases hcomma : ',' ∈ raw
  · obtain ⟨first, second, rest, htokens⟩ := Text.exists_split_eq_of_mem hcomma
    have hmem : ',' ∈ paramsText (splitParams raw) := by
      rw [hsplit, htokens]
      simp [paramsText, Text.toList_join_cons]
    exact absurd (hblank ',' hmem) (by decide)
  · rw [hsplit, Text.split_of_not_mem hcomma] at hblank
    exact h (List.all_eq_true.mpr (Param.isBlank_of_text_ofToken hblank))

/-- Parameters are read from their text as they were. -/
theorem splitParams_paramsText (raw : List Char) :
    splitParams (paramsText (splitParams raw)) = splitParams raw := by
  cases hblank : raw.all Text.isBlank with
  | true =>
      have hnone : splitParams raw = [] := if_pos hblank
      rw [hnone]
      rfl
  | false =>
      have hsplit : splitParams raw = (Text.split ',' raw).map Param.ofToken := by
        simp [splitParams, hblank]
      obtain ⟨first, rest, htokens⟩ := List.exists_cons_of_ne_nil (Text.split_ne_nil ',' raw)
      have htexts : (splitParams raw).map Param.text =
          (Param.ofToken first).text :: rest.map fun token => (Param.ofToken token).text := by
        simp [hsplit, htokens]
      have hpieces : Text.split ',' (paramsText (splitParams raw)) =
          (Param.ofToken first).text.toList ::
            rest.map fun token => ' ' :: (Param.ofToken token).text.toList := by
        rw [paramsText, htexts, Text.split_join]
        · simp
        · rw [← htexts, hsplit]
          simpa using fun token => comma_not_mem_text
      have hspace (token : List Char) :
          Param.ofToken (' ' :: (Param.ofToken token).text.toList) = Param.ofToken token := by
        rw [Param.ofToken_blank_cons (by decide), Param.ofToken_text]
      calc splitParams (paramsText (splitParams raw))
          = (Text.split ',' (paramsText (splitParams raw))).map Param.ofToken := by
            rw [splitParams, not_blank_paramsText hblank, if_neg (by decide)]
        _ = (first :: rest).map Param.ofToken := by
            simp [hpieces, Param.ofToken_text, hspace]
        _ = splitParams raw := by rw [hsplit, htokens]

/-! Heads. -/

/-- A label as it is written, if there is one. -/
def labelText : Option (List Char) → List Char
  | none => []
  | some label => label ++ [':', ' ']

/-- Parameters with their parentheses, if there are any. -/
def enclosed : Option (List Char) → List Char
  | none => []
  | some params => '(' :: (params ++ [')'])

theorem spellsLabel_labelText {label : Option (List Char)} (h : ∀ text ∈ label, NameText text)
    (rest : List Char) : SpellsLabel label (labelText label ++ rest) rest := by
  cases label with
  | none => exact .absent
  | some label =>
      have hcolon : NameBefore label ([] ++ ':' :: ([' '] ++ rest)) :=
        (h label rfl).before (by simp [isNameChar_colon])
      simpa [labelText] using SpellsLabel.present hcolon (by simp) (by simp [isSpacing, isGap])

theorem spellsParams_enclosed {params : Option (List Char)} (h : ∀ text ∈ params, ')' ∉ text) :
    SpellsParams params (enclosed params) [] := by
  cases params with
  | none => exact .absent
  | some params => exact .present (h params rfl)

/-- A head spells itself. -/
theorem spells_head {label params : Option (List Char)} {name : List Char}
    (hlabel : ∀ text ∈ label, NameText text) (hname : NameText name)
    (hparams : ∀ text ∈ params, ')' ∉ text) :
    Spells [⟨label, name, params, none⟩] (labelText label ++ (name ++ enclosed params)) := by
  have hbefore : NameBefore name (enclosed params) := by
    apply hname.before
    intro c hc
    cases params with
    | none => simp [enclosed] at hc
    | some params =>
        obtain rfl : '(' = c := by simpa [enclosed] using hc
        exact isNameChar_paren
  have hhead : SpellsHead label name params (labelText label ++ (name ++ enclosed params)) [] :=
    .head (spellsLabel_labelText hlabel _) hbefore (spellsParams_enclosed hparams)
  have hnone : AllBlank [] := by simp [AllBlank]
  have hitems : SpellsItems [⟨label, name, params, none⟩]
      ([] ++ (labelText label ++ (name ++ enclosed params))) [] :=
    .cons hnone (.item hhead .absent) .nil
  exact ⟨[], hitems, hnone⟩

theorem selectionOf_head (label : Option (List Char)) (name : List Char)
    (params : Option (List Char)) :
    selectionOf [⟨label, name, params, none⟩] = [headCall label name params] :=
  Selection.withCall_nil _

/-- The head that the text of a call spells: a label that repeats the name is
left out. -/
def headItem (label : Option (List Char)) (name : List Char) (params : Option (List Char)) :
    Item :=
  ⟨if label = some name then none else label, name,
    params.map fun raw => paramsText (splitParams raw), none⟩

theorem call_headItem (label : Option (List Char)) (name : List Char)
    (params : Option (List Char)) :
    (headItem label name params).call = headCall label name params := by
  have hparams : (params.map fun raw => paramsText (splitParams raw)).map splitParams =
      params.map splitParams := by
    cases params with
    | none => rfl
    | some raw => exact congrArg some (splitParams_paramsText raw)
  by_cases h : label = some name
  · simp [headItem, Item.call, headCall, h, hparams]
  · simp [headItem, Item.call, headCall, h, hparams]

theorem toList_text_headCall (label : Option (List Char)) (name : List Char)
    (params : Option (List Char)) : (headCall label name params).text.toList =
      labelText (headItem label name params).label ++
        (name ++ enclosed (headItem label name params).params) := by
  have hlabel : (headItem label name params).label.map String.ofList =
      (headCall label name params).label := by
    simp only [headItem, headCall]
    split <;> rfl
  rw [Call.text, ← hlabel]
  cases (headItem label name params).label <;> cases params <;>
    simp [headItem, headCall, labelText, enclosed, paramsText]

/-- The text of a written call spells its head. -/
theorem spells_text {label params : Option (List Char)} {name : List Char}
    (hlabel : ∀ text ∈ label, NameText text) (hname : NameText name)
    (hparams : ∀ text ∈ params, ')' ∉ text) :
    Spells [headItem label name params] (headCall label name params).text.toList := by
  rw [toList_text_headCall]
  refine spells_head ?_ hname ?_
  · intro text htext
    split at htext
    next => simp at htext
    next => exact hlabel text htext
  · intro text htext
    obtain ⟨raw, hraw, rfl⟩ := Option.map_eq_some_iff.mp htext
    exact not_mem_paramsText (hparams raw hraw) (by decide) (by decide)

theorem Written.compile_text {c : Call} (h : Written c) : compile c.text = .ok [c] := by
  obtain @⟨label, params, name, hlabel, hname, hparams⟩ := h
  rw [(spells_text hlabel hname hparams).compile_eq, headItem, selectionOf_head]
  exact congrArg (fun c => Except.ok [c]) (call_headItem label name params)

end Schema

/-- A name with parameters is compiled to its call. -/
theorem compile_call {name raw : String} (hname : Schema.NameText name.toList)
    (hraw : ')' ∉ raw.toList) : compile (name ++ "(" ++ raw ++ ")") =
      .ok [⟨name, none, some (Schema.splitParams raw.toList), none⟩] := by
  have hspells : Schema.Spells [⟨none, name.toList, some raw.toList, none⟩]
      (name ++ "(" ++ raw ++ ")").toList := by
    have htext : (name ++ "(" ++ raw ++ ")").toList =
        Schema.labelText none ++ (name.toList ++ Schema.enclosed (some raw.toList)) := by
      simp [Schema.labelText, Schema.enclosed]
    rw [htext]
    exact Schema.spells_head (by simp) hname (by simpa using hraw)
  rw [hspells.compile_eq, Schema.selectionOf_head]
  simp [Schema.headCall]

/-! Schemas of one call with one parameter. -/

/-- A character that ends neither a token nor the parameters it stands among. -/
def Param.IsPlain (c : Char) : Prop := Text.isBlank c = false ∧ c ≠ ',' ∧ c ≠ ')'

theorem Param.isPlain_of {p : Char → Prop} {c : Char} (h : p c) (hblank : Text.isBlank c = false)
    (hcomma : ¬ p ',') (hparen : ¬ p ')') : IsPlain c :=
  ⟨hblank, fun hc => hcomma (hc ▸ h), fun hc => hparen (hc ▸ h)⟩

theorem Param.IsNumeric.isPlain {c : Char} (h : IsNumeric c) : IsPlain c :=
  isPlain_of h h.isBlank (by decide) (by decide)

theorem compile_single {name token : String} (hname : Schema.NameText name.toList)
    (hne : token.toList ≠ []) (hplain : ∀ c ∈ token.toList, Param.IsPlain c) :
    compile (name ++ "(" ++ token ++ ")") =
      .ok [⟨name, none, some [Param.ofToken token.toList], none⟩] := by
  have hparen : ')' ∉ token.toList := fun hmem => (hplain _ hmem).2.2 rfl
  have hcomma : ',' ∉ token.toList := fun hmem => (hplain _ hmem).2.1 rfl
  have hblank : ¬ token.toList.all Text.isBlank = true := by
    obtain ⟨first, rest, hcons⟩ := List.exists_cons_of_ne_nil hne
    have hfirst := (hplain first (by simp [hcons])).1
    simp [hcons, hfirst]
  rw [compile_call hname hparen, Schema.splitParams, if_neg hblank, Text.split_of_not_mem hcomma]
  rfl

/-- Every call of a compiled schema, at whatever level, is compiled from its
text as it was, without its group; and every token is read from the text of the
parameter that it was read as to that parameter again. -/
theorem compile_text_of_mem_all {schema : String} {s : Selection} (h : compile schema = .ok s)
    {c : Call} (hc : c ∈ Selection.all s) :
    compile c.text = .ok [{ c with nested := none }] ∧
      ∀ token : List Char, Param.ofToken (Param.ofToken token).text.toList = Param.ofToken token :=
  ⟨(Schema.heads_of_compile h c hc).compile_text, Param.ofToken_text⟩

/-- A call with a dotted label, an empty token, a number and a quoted text. -/
def Schema.measured : Item :=
  ⟨some ['a', '.', 'b'], ['o', 'p'], some " ,-0.50, \"x [ y\"".toList, none⟩

theorem Schema.call_measured : measured.call = ⟨"op", some "a.b",
    some [.literal "", .number ⟨0xbfe0000000000000⟩, .literal "\"x [ y\""], none⟩ := by
  have hparams : splitParams " ,-0.50, \"x [ y\"".toList =
      [.literal "", .number ⟨0xbfe0000000000000⟩, .literal "\"x [ y\""] := by
    decide +kernel
  rw [← hparams]
  rfl

/-- A head in the group of a name, as it is written. -/
theorem Schema.spells_grouped {outer label name raw : List Char} (houter : NameText outer)
    (hlabel : NameText label) (hname : NameText name) (hraw : ')' ∉ raw) :
    Spells [⟨none, outer, none, some [⟨some label, name, some raw, none⟩]⟩]
      (outer ++ '{' :: (labelText (some label) ++ (name ++ '(' :: (raw ++ ')' :: ['}'])))) := by
  have hnone : AllBlank [] := by simp [AllBlank]
  have hbrace : isNameChar '{' = false := by decide
  have hhead : SpellsHead (some label) name (some raw)
      (labelText (some label) ++ (name ++ '(' :: (raw ++ ')' :: ['}']))) ['}'] :=
    .head (spellsLabel_labelText (by simpa using hlabel) _)
      (hname.before (by simp [isNameChar_paren])) (.present hraw)
  have hinner : SpellsItems [⟨some label, name, some raw, none⟩]
      ([] ++ (labelText (some label) ++ (name ++ '(' :: (raw ++ ')' :: ['}'])))) ([] ++ '}' :: []) :=
    .cons hnone (.item hhead .absent) .nil
  have hgroup : SpellsGroup (some [⟨some label, name, some raw, none⟩])
      ([] ++ '{' :: (labelText (some label) ++ (name ++ '(' :: (raw ++ ')' :: ['}'])))) [] :=
    .present hnone hinner hnone
  have hitems : SpellsItems [⟨none, outer, none, some [⟨some label, name, some raw, none⟩]⟩]
      ([] ++ (outer ++ '{' :: (labelText (some label) ++ (name ++ '(' :: (raw ++ ')' :: ['}'])))))
      [] :=
    .cons hnone (.item (.head .absent (houter.before (by simp [hbrace])) .absent) hgroup)
      .nil
  exact ⟨[], hitems, hnone⟩

theorem Schema.measured_mem_all :
    measured.call ∈ Selection.all (selectionOf [⟨none, ['n'], none, some [measured]⟩]) := by
  have hall : Selection.all (selectionOf [⟨none, ['n'], none, some [measured]⟩]) =
      [Item.call ⟨none, ['n'], none, some [measured]⟩, measured.call] := rfl
  simp [hall]

theorem measured_compiled_again :
    Schema.measured.call = ⟨"op", some "a.b",
      some [.literal "", .number ⟨0xbfe0000000000000⟩, .literal "\"x [ y\""], none⟩ ∧
    compile Schema.measured.call.text = .ok [Schema.measured.call] ∧
      ∀ token : List Char, Param.ofToken (Param.ofToken token).text.toList = Param.ofToken token := by
  have houter : Schema.NameText ['n'] := ⟨List.all_eq_true.mp (by decide +kernel), by decide⟩
  have hlabel : Schema.NameText ['a', '.', 'b'] :=
    ⟨List.all_eq_true.mp (by decide +kernel), by decide⟩
  have hname : Schema.NameText ['o', 'p'] := ⟨List.all_eq_true.mp (by decide +kernel), by decide⟩
  have hraw : ')' ∉ " ,-0.50, \"x [ y\"".toList := by decide
  have hspells := Schema.spells_grouped houter hlabel hname hraw
  rw [← String.toList_ofList (l := ['n'] ++ _)] at hspells
  exact ⟨Schema.call_measured, compile_text_of_mem_all hspells.compile_eq Schema.measured_mem_all⟩

end FieldQuery
