import FieldQuery.Proofs.Schema.Compile
import FieldQuery.Proofs.Selection.Numbers
import FieldQuery.Proofs.Selection.Param

/-!
The calls of a compiled tree, without their groups. Each is the call of a head
that a text can have, at whatever level it stands.
-/

namespace FieldQuery.Schema

/-- Name characters without empty segments. -/
structure NameText (text : List Char) : Prop where
  chars : ∀ c ∈ text, isNameChar c = true
  segments : ∀ segment ∈ Text.split '.' text, segment ≠ []

theorem NameBefore.nameText {name rest : List Char} (h : NameBefore name rest) : NameText name :=
  ⟨h.chars, h.segments⟩

theorem NameText.before {name rest : List Char} (h : NameText name)
    (hrest : ∀ c ∈ rest.head?, isNameChar c = false) : NameBefore name rest :=
  ⟨h.chars, h.segments, hrest⟩

/-- The call of a head that a text can have. -/
inductive Written : Call → Prop where
  | head {label params : Option (List Char)} {name : List Char} :
      (∀ text ∈ label, NameText text) → NameText name → (∀ text ∈ params, ')' ∉ text) →
      Written (headCall label name params)

theorem SpellsHead.written {label params : Option (List Char)} {name text rest : List Char}
    (h : SpellsHead label name params text rest) : Written (headCall label name params) := by
  obtain ⟨hlabel, hname, hparams⟩ := h
  refine .head ?_ hname.nameText ?_
  · intro text htext
    cases hlabel with
    | absent => simp at htext
    | present hbefore =>
        obtain rfl := Option.some.inj htext
        exact hbefore.nameText
  · intro text htext
    cases hparams with
    | absent => simp at htext
    | present hparen =>
        obtain rfl := Option.some.inj htext
        exact hparen

mutual

theorem SpellsItem.heads : ∀ {item : Item} {text rest : List Char}, SpellsItem item text rest →
    Selection.Heads Written [item.call]
  | ⟨_, _, _, none⟩, _, _, .item hhead _ =>
      Selection.heads_singleton.mpr ⟨hhead.written, Selection.heads_nil⟩
  | ⟨_, _, _, some items⟩, _, _, .item hhead (.present _ hitems _) => by
      refine Selection.heads_singleton.mpr ⟨hhead.written, ?_⟩
      change Selection.Heads Written (insertItems [] items)
      rw [insertItems_eq_merge]
      exact Selection.keepsHeads _ hitems.heads [] Selection.heads_nil

theorem SpellsItems.heads : ∀ {items : List Item} {text rest : List Char},
    SpellsItems items text rest → Selection.Heads Written (items.map Item.call)
  | [], _, _, _ => Selection.heads_nil
  | _ :: _, _, _, .cons _ hitem hitems => by
      obtain ⟨hcall, hnested⟩ := Selection.heads_singleton.mp hitem.heads
      exact Selection.heads_cons.mpr ⟨hcall, hnested, hitems.heads⟩

end

/-! Numbers among the parameters. -/

theorem isFinite_splitParams {text : List Char} {x : Double}
    (h : x ∈ (splitParams text).filterMap Param.number?) : x.isFinite = true := by
  obtain ⟨p, hp, hx⟩ := List.mem_filterMap.mp h
  unfold splitParams at hp
  split at hp
  next => simp at hp
  next =>
    obtain ⟨token, -, rfl⟩ := List.mem_map.mp hp
    cases htoken : Param.ofToken token with
    | named name => simp [htoken, Param.number?] at hx
    | number y =>
        obtain rfl : y = x := by simpa [htoken, Param.number?] using hx
        exact Param.isFinite_ofToken htoken
    | literal text => simp [htoken, Param.number?] at hx

theorem isFinite_headCall (label : Option (List Char)) (name : List Char)
    (params : Option (List Char)) :
    ∀ x ∈ (headCall label name params).numbers, x.isFinite = true := by
  intro x hx
  cases params with
  | none => simp [Call.numbers, Call.args, headCall] at hx
  | some params => exact isFinite_splitParams hx

theorem Written.isFinite {c : Call} (h : Written c) : ∀ x ∈ c.numbers, x.isFinite = true := by
  obtain @⟨label, params, name, -, -, -⟩ := h
  exact isFinite_headCall label name params

/-- Without its group, every call of a compiled tree is that of a head. -/
theorem heads_of_compile {schema : String} {s : Selection} (h : compile schema = .ok s) :
    s.Heads Written := by
  obtain ⟨items, ⟨after, hitems, -⟩, rfl⟩ := exists_spells_of_compile h
  rw [selectionOf, insertItems_eq_merge]
  exact Selection.keepsHeads _ hitems.heads [] Selection.heads_nil

theorem isFinite_of_compile {schema : String} {s : Selection} (h : compile schema = .ok s) :
    ∀ x ∈ s.numbers, x.isFinite = true :=
  Selection.forall_mem_numbers.mpr fun c hc => (heads_of_compile h c hc).isFinite

end FieldQuery.Schema
