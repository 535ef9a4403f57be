import FieldQuery.Proofs.Schema.Cursor
import FieldQuery.Proofs.Selection.Merge

/-!
Compilation against the grammar of schema texts. The cursor inserts a call
without its group and fills the group in place, while the grammar gives each
item its whole group first. A text compiles exactly if items spell it, and then
to the selection that these items stand for.
-/

namespace FieldQuery.Schema

/-! What the items of a text do to a selection. -/

theorem insertItems_eq_merge (items : List Item) (s : Selection) :
    insertItems s items = s.merge (items.map Item.call) := by
  induction items generalizing s with
  | nil => rfl
  | cons item items ih =>
      rw [insertItems, ih]
      rfl

mutual

theorem callWellFormed_call : ∀ item : Item, Selection.CallWellFormed item.call
  | ⟨_, _, _, none⟩ => trivial
  | ⟨_, _, _, some items⟩ => by
      change Selection.WellFormed (insertItems [] items)
      rw [insertItems_eq_merge]
      exact Selection.ofCalls_wellFormed (callWellFormed_calls items)

theorem callWellFormed_calls : ∀ items : List Item,
    ∀ c ∈ items.map Item.call, Selection.CallWellFormed c
  | [] => by simp
  | item :: items =>
      List.forall_mem_cons.mpr ⟨callWellFormed_call item, callWellFormed_calls items⟩

end

/-- Filling the group of a head in place is inserting the call of the item. -/
theorem editNested_insert_headCall (label : Option (List Char)) (name : List Char)
    (params : Option (List Char)) (items : List Item) (s : Selection) :
    (s.insert (headCall label name params)).editNested (s.insertPlace (headCall label name params))
        (insertItems · items) =
      s.insert (Item.call ⟨label, name, params, some items⟩) := by
  have hfill := Selection.editNested_insert (c := headCall label name params) rfl
    (callWellFormed_calls items) s
  simp only [insertItems_eq_merge, hfill]
  congr 1
  rw [Item.call, insertItems_eq_merge]
  rfl

/-! Text that items spell is read as these items. -/

theorem SpellsItem.exists_cons {item : Item} {text rest : List Char}
    (h : SpellsItem item text rest) : ∃ c tail, text = c :: tail ∧ isNameChar c = true := by
  obtain ⟨hhead, -⟩ := h
  exact hhead.exists_cons

theorem follows_of_trimStart_cons {text tail : List Char} {c : Char}
    (h : Text.trimStart text = c :: tail) (hcolon : c ≠ ':') (hparen : c ≠ '(') :
    Follows text := by
  intro d hd
  obtain rfl : c = d := by simpa [h] using hd
  exact ⟨hcolon, hparen⟩

theorem follows_brace {before : List Char} (hbefore : AllBlank before) {brace : Char}
    (hbrace : brace = '{' ∨ brace = '}') (tail : List Char) :
    Follows (before ++ brace :: tail) := by
  have htrim : Text.trimStart (before ++ brace :: tail) = brace :: tail := by
    rw [Text.trimStart_append hbefore]
    rcases hbrace with rfl | rfl <;> exact Text.trimStart_cons (by decide) tail
  apply follows_of_trimStart_cons htrim
  · rcases hbrace with rfl | rfl <;> decide
  · rcases hbrace with rfl | rfl <;> decide

theorem SpellsItems.follows {items : List Item} {text rest : List Char}
    (h : SpellsItems items text rest) (hrest : Follows rest) : Follows text := by
  cases h with
  | nil => exact hrest
  | cons hbefore hitem =>
      obtain ⟨c, tail, rfl, hc⟩ := hitem.exists_cons
      have htrim := (Text.trimStart_append hbefore (c :: tail)).trans
        (Text.trimStart_cons (isBlank_of_isNameChar hc) tail)
      apply follows_of_trimStart_cons htrim
      · rintro rfl
        exact absurd hc (by decide)
      · rintro rfl
        exact absurd hc (by decide)

theorem SpellsGroup.follows {group : Option (List Item)} {text rest : List Char}
    (h : SpellsGroup group text rest) (hrest : Follows rest) : Follows text := by
  cases h with
  | absent => exact hrest
  | present hbefore => exact follows_brace hbefore (Or.inl rfl) _

mutual

theorem SpellsItem.run : ∀ {item : Item} {text rest : List Char}, SpellsItem item text rest →
    Follows rest → ∀ (tree : Selection) (groups : List Group) (last : Option Nat),
    ∃ last', (Cursor.mk tree groups last text).run =
      (Cursor.mk (editAt tree (places groups) (·.insert item.call)) groups last' rest).run
  | ⟨label, name, params, group⟩, _, rest, .item hhead hgroup => by
      intro hrest tree groups last
      obtain ⟨c, tail, rfl, hc⟩ := hhead.exists_cons
      have hcall := hhead.takeCall?_eq (hgroup.follows hrest)
      rw [Cursor.run_call hc hcall]
      cases group with
      | none =>
          cases hgroup
          exact ⟨_, rfl⟩
      | some items =>
          refine ⟨none, ?_⟩
          rw [hgroup.run, editAt_editAt]
          refine congrArg (fun tree => (Cursor.mk tree groups none rest).run) (editAt_congr ?_)
          exact editNested_insert_headCall label name params items _

theorem SpellsGroup.run : ∀ {items : List Item} {text rest : List Char},
    SpellsGroup (some items) text rest → ∀ (tree : Selection) (groups : List Group) (place : Nat),
    (Cursor.mk tree groups (some place) text).run =
      (Cursor.mk (editAt tree (places groups) (·.editNested place (insertItems · items))) groups
        none rest).run
  | items, _, rest, @SpellsGroup.present _ _ text _ _ hbefore hitems hafter => by
      intro tree groups place
      obtain ⟨last, hinner⟩ := hitems.run (follows_brace hafter (Or.inr rfl) rest) tree id
        (⟨place, '{' :: text⟩ :: groups) none
      rw [places_cons, editAt_concat, editAt_concat] at hinner
      rw [Cursor.run_blank hbefore, Cursor.run_open]
      refine hinner.trans ?_
      rw [Cursor.run_blank hafter, Cursor.run_close]
      rfl

theorem SpellsItems.run : ∀ {items : List Item} {text rest : List Char},
    SpellsItems items text rest → Follows rest → ∀ (tree : Selection)
    (edit : Selection → Selection) (groups : List Group) (last : Option Nat),
    ∃ last', (Cursor.mk (editAt tree (places groups) edit) groups last text).run =
      (Cursor.mk (editAt tree (places groups) fun inner => insertItems (edit inner) items) groups
        last' rest).run
  | _, _, _, .nil => fun _ _ _ _ last => ⟨last, rfl⟩
  | _, _, _, @SpellsItems.cons item _ _ _ _ _ hbefore hitem hitems => by
      intro hrest tree edit groups last
      obtain ⟨middle, hfirst⟩ := hitem.run (hitems.follows hrest)
        (editAt tree (places groups) edit) groups last
      rw [editAt_editAt] at hfirst
      obtain ⟨last', hmore⟩ := hitems.run hrest tree (fun inner => (edit inner).insert item.call)
        groups middle
      exact ⟨last', (Cursor.run_blank hbefore _ _ _ _).trans (hfirst.trans hmore)⟩

end

/-! Text that compiles is spelled by items. -/

/-- Text that closes `n` open groups, each after further items, and ends after
the items of the root. -/
inductive Continues : Nat → List Char → Prop where
  | done {items : List Item} {text after : List Char} : SpellsItems items text after →
      AllBlank after → Continues 0 text
  | close {items : List Item} {n : Nat} {text after rest : List Char} :
      SpellsItems items text (after ++ '}' :: rest) → AllBlank after → Continues n rest →
      Continues (n + 1) text

theorem Continues.cons {item : Item} {n : Nat} {before text rest : List Char}
    (hbefore : AllBlank before) (hitem : SpellsItem item text rest) (h : Continues n rest) :
    Continues n (before ++ text) := by
  cases h with
  | done hitems hafter => exact .done (.cons hbefore hitem hitems) hafter
  | close hitems hafter hrest => exact .close (.cons hbefore hitem hitems) hafter hrest

/-- A cursor that runs to a selection stands before text that closes all its
open groups. After a call this text may begin with the group of the call. -/
theorem continues_of_run (c : Cursor) {s : Selection} (h : c.run = .ok s) :
    ∃ group rest, SpellsGroup group c.rest rest ∧ (c.last = none → group = none) ∧
      Continues c.groups.length rest := by
  induction c using Cursor.run.induct with
  | case1 c fault hstep =>
      rw [Cursor.run_of_step_error hstep] at h
      simp at h
  | case2 c hstep =>
      rw [Cursor.run_of_step_end hstep, Cursor.finish] at h
      have hblank : AllBlank c.rest :=
        List.dropWhile_eq_nil_iff.mp (Cursor.trimStart_of_step_end hstep)
      cases hgroups : c.groups with
      | nil => exact ⟨none, c.rest, .absent, fun _ => rfl, .done .nil hblank⟩
      | cons group outer => simp [hgroups] at h
  | case3 c next hstep _ ih =>
      rw [Cursor.run_of_step hstep] at h
      obtain ⟨before, hbefore, htext⟩ := Text.exists_blank_append_trimStart c.rest
      obtain ⟨group, rest, hgroup, hlast, hrest⟩ := ih h
      rcases Cursor.step_cases hstep with ⟨place, tail, hplace, htrim, rfl⟩ |
        ⟨inner, outer, tail, hgroups, htrim, rfl⟩ | ⟨call, tail, hcall, rfl⟩
      · obtain rfl := hlast rfl
        cases hgroup
        rw [htrim] at htext
        cases hrest with
        | @close items _ _ _ outside hitems hafter hrest =>
            refine ⟨some items, outside, ?_, ?_, hrest⟩
            · rw [← htext]
              exact .present hbefore hitems hafter
            · intro hnone
              simp [hplace] at hnone
      · obtain rfl := hlast rfl
        cases hgroup
        rw [htrim] at htext
        refine ⟨none, c.rest, .absent, fun _ => rfl, ?_⟩
        rw [hgroups, ← htext]
        exact .close .nil hbefore hrest
      · obtain ⟨label, name, params, hhead⟩ := spellsHead_of_takeCall? hcall
        refine ⟨none, c.rest, .absent, fun _ => rfl, ?_⟩
        rw [← htext]
        exact hrest.cons hbefore (.item hhead hgroup)

theorem spells_of_compileText {text : List Char} {s : Selection}
    (h : compileText text = .ok s) : ∃ items, Spells items text := by
  obtain ⟨group, rest, hgroup, hlast, hrest⟩ := continues_of_run (Cursor.start text) h
  obtain rfl := hlast rfl
  cases hgroup
  cases hrest with
  | done hitems hafter => exact ⟨_, _, hitems, hafter⟩

theorem Spells.compileText {items : List Item} {text : List Char} (h : Spells items text) :
    compileText text = .ok (selectionOf items) := by
  obtain ⟨after, hitems, hafter⟩ := h
  have hend := Text.trimStart_eq_nil hafter
  have hfollows : Follows after := by
    intro c hc
    simp [hend] at hc
  obtain ⟨last, hrun⟩ := hitems.run hfollows [] id [] none
  refine hrun.trans ?_
  rw [Cursor.run_of_step_end (Cursor.step_end hend)]
  rfl

end FieldQuery.Schema

namespace FieldQuery

theorem Schema.exists_spells_of_compile {schema : String} {s : Selection}
    (h : compile schema = .ok s) : ∃ items, Spells items schema.toList ∧ selectionOf items = s := by
  have htext : compileText schema.toList = .ok s := by
    unfold compile at h
    cases hresult : compileText schema.toList with
    | error fault => simp [hresult, Except.mapError] at h
    | ok t => simpa [hresult, Except.mapError] using h
  obtain ⟨items, hitems⟩ := spells_of_compileText htext
  refine ⟨items, hitems, ?_⟩
  exact (Except.ok.inj (htext.symm.trans hitems.compileText)).symm

theorem Schema.Spells.compile_eq {items : List Item} {schema : String}
    (h : Spells items schema.toList) : compile schema = .ok (selectionOf items) := by
  rw [compile, h.compileText]
  rfl

/-- A schema text compiles exactly if items spell it, and then to what these
items stand for: the calls of the items inserted in order, each with the
selection of its own group. -/
theorem compile_eq_ok_iff_spells (schema : String) (s : Selection) :
    compile schema = .ok s ↔
      ∃ items, Schema.Spells items schema.toList ∧ Schema.selectionOf items = s := by
  constructor
  · exact Schema.exists_spells_of_compile
  · rintro ⟨items, hitems, rfl⟩
    exact hitems.compile_eq

end FieldQuery
