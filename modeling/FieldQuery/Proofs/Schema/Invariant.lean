import FieldQuery.Proofs.Schema.Head
import FieldQuery.Proofs.Schema.Places
import FieldQuery.Proofs.Selection.Union
import Mathlib.Logic.Relation

/-!
What holds of the cursor before every step over any text. Its groups are bare
places in a tree that grows and merges below them, so the tree, the places and
the text are tied together: the places lead to the group of the innermost brace
that is still open, and that group is the one of the item before the brace.
-/

namespace FieldQuery.Schema

/-- Up to the rest, a text is items and braces, and every brace has its
partner. -/
inductive Balanced : List Char → List Char → Prop where
  | nil {text : List Char} : Balanced text text
  | item {text before rest : List Char} {item : Call} : Balanced text before →
      takeCall? (Text.trimStart before) = some (item, rest) → Balanced text rest
  | group {text before inner after rest : List Char} : Balanced text before →
      Text.trimStart before = '{' :: inner → Balanced inner after →
      Text.trimStart after = '}' :: rest → Balanced text rest

/-- Up to the rest, the braces of a text without a partner are those that the
groups begin with, the innermost first. -/
inductive Unclosed (text : List Char) : List Group → List Char → Prop where
  | nil {rest : List Char} : Balanced text rest → Unclosed text [] rest
  | cons {groups : List Group} {before inner rest : List Char} (place : Nat) :
      Unclosed text groups before → Text.trimStart before = '{' :: inner → Balanced inner rest →
      Unclosed text (⟨place, '{' :: inner⟩ :: groups) rest

theorem Unclosed.extend {text before rest : List Char} {groups : List Group}
    (h : Unclosed text groups before) (hextend : ∀ t, Balanced t before → Balanced t rest) :
    Unclosed text groups rest := by
  cases h with
  | nil hbalanced => exact .nil (hextend _ hbalanced)
  | cons place houter hopen hbalanced => exact .cons place houter hopen (hextend _ hbalanced)

/-- At the place, and nowhere else in the selection, is a call with the
signature of the item. -/
structure Locates (s : Selection) (item : Call) (place : Nat) : Prop where
  there : ∃ c, s[place]? = some c ∧ c.sameSignature item = true
  unique : ∀ (i : Nat) (c : Call), s[i]? = some c → c.sameSignature item = true → i = place

/-! Items. -/

theorem nested_of_takeCall? {text rest : List Char} {item : Call}
    (h : takeCall? text = some (item, rest)) : item.nested = none := by
  obtain ⟨label, name, params, rfl⟩ := exists_headCall_of_takeCall? h
  rfl

/-- No number in an item is a NaN. -/
theorem sameSignature_of_takeCall? {text rest : List Char} {item : Call}
    (h : takeCall? text = some (item, rest)) : item.sameSignature item = true := by
  obtain ⟨label, name, params, rfl⟩ := exists_headCall_of_takeCall? h
  apply Call.sameSignature_self
  intro x hx
  simp [Double.isNaN, isFinite_headCall label name params x hx]

theorem callWellFormed_of_takeCall? {text rest : List Char} {item : Call}
    (h : takeCall? text = some (item, rest)) : Selection.CallWellFormed item := by
  rw [Selection.callWellFormed_iff, nested_of_takeCall? h]
  trivial

theorem locates_insertPlace {s : Selection} {item : Call} (hs : Selection.WellFormed s)
    (hwell : Selection.CallWellFormed item) (hitem : item.sameSignature item = true) :
    Locates (s.insert item) item (s.insertPlace item) := by
  obtain ⟨c, hc, hlike⟩ := Selection.exists_like_at_insertPlace s item
  have hsame : c.sameSignature item = true := by
    rcases hlike with hsame | heq
    · exact hsame
    · rwa [Call.sameSignature_of_eq heq ⟨rfl, rfl, rfl⟩]
  refine ⟨⟨c, hc, hsame⟩, ?_⟩
  intro i d hd hsame'
  have hdc := Call.sameSignature_trans hsame' (Call.sameSignature_symm hsame)
  exact (Selection.insert_wellFormed hs hwell).place_unique hd hc hdc

/-! Cursors on their way through a text. -/

namespace Cursor

variable {text : List Char} {c d : Cursor}

def Next (c d : Cursor) : Prop := c.step = .ok (some d)

def Reaches : Cursor → Cursor → Prop := Relation.ReflTransGen Next

/-- The next step reads an item, blanks before it aside. -/
structure Reads (c : Cursor) (item : Call) (d : Cursor) : Prop where
  next : c.Next d
  item : takeCall? (Text.trimStart c.rest) = some (item, d.rest)

/-- The cursor stands behind an item of the text, and the place is that of the
call of this item. -/
def Behind (text : List Char) (c : Cursor) (place : Nat) : Prop :=
  ∃ b item, (start text).Reaches b ∧ b.Reads item c ∧ Locates c.target item place

/-- The brace of the group was read right behind an item of the text, and the
group is that of the call of this item. -/
def Owned (text : List Char) (c : Cursor) (group : Group) (outer : List Group) : Prop :=
  ∃ a item b owner, (start text).Reaches a ∧ a.Reads item b ∧ b.Reaches c ∧
    b.groups = outer ∧ b.last = some group.place ∧ Text.trimStart b.rest = group.opening ∧
    callAt? c.tree b.path group.place = some owner ∧ owner.sameSignature item = true ∧
    owner.nested = some c.target

/-- What holds before every step over a text. -/
structure Sound (text : List Char) (c : Cursor) : Prop where
  /-- What is left to do is what compiling the text does. -/
  run_eq : compileText text = c.run
  /-- The places of the open groups lead through calls that have groups. -/
  walk : groupAt? c.tree c.path = some c.target
  /-- Edits of the innermost open group stay in bounds on their way to it. -/
  target_in_bounds : ∀ edit, editAt? c.tree c.path edit = some (editAt c.tree c.path edit)
  /-- So do edits of the group that the call just read may have. -/
  opening_in_bounds : ∀ place, c.last = some place → ∀ edit,
    editAt? c.tree (c.path ++ [place]) edit = some (editAt c.tree (c.path ++ [place]) edit)
  /-- The last place is that of the item just read. -/
  behind : ∀ place, c.last = some place → c.Behind text place
  /-- The open groups are those of the braces that are not closed yet. -/
  unclosed : Unclosed text c.groups c.rest
  /-- The innermost group is that of the item before its brace. -/
  owned : ∀ group outer, c.groups = group :: outer → c.Owned text group outer
  /-- No call is ever removed or moved. -/
  kept : ∀ d, c.Reaches d → Grows c.tree d.tree

/-! The tree and the places. -/

/-- The places lead somewhere, and the last call is there. -/
structure Walks (c : Cursor) : Prop where
  walk : groupAt? c.tree c.path = some c.target
  last : ∀ place, c.last = some place → place < c.target.length

theorem walk_of_groupAt? {g : Selection} (h : groupAt? c.tree c.path = some g) :
    groupAt? c.tree c.path = some c.target := by
  rw [h, target, groupAt_eq h]

theorem Walks.next (h : c.Walks) (hnext : c.Next d) : d.Walks := by
  rcases step_cases hnext with ⟨place, tail, hplace, -, rfl⟩ |
    ⟨group, outer, tail, hgroups, -, rfl⟩ | ⟨item, tail, -, rfl⟩
  · obtain ⟨owner, howner⟩ : ∃ owner, c.target[place]? = some owner :=
      ⟨_, List.getElem?_eq_getElem (h.last place hplace)⟩
    refine ⟨walk_of_groupAt? (g := owner.nested.getD []) ?_, by simp⟩
    have hcall : callAt? (editAt c.tree c.path (·.editNested place id)) c.path place =
        some { owner with nested := some (owner.nested.getD []) } := by
      rw [callAt?_eq (groupAt?_editAt h.walk _)]
      simp [Selection.editNested, howner]
    change groupAt? _ (places (_ :: c.groups)) = _
    rw [places_cons, groupAt?_concat]
    exact congrArg (·.bind Call.nested) hcall
  · have hwalk : groupAt? c.tree (places outer ++ [group.place]) = some c.target := by
      rw [← places_cons, ← hgroups]
      exact h.walk
    rw [groupAt?_concat] at hwalk
    obtain ⟨owner, howner, -⟩ := Option.bind_eq_some_iff.mp hwalk
    obtain ⟨g, hg, -⟩ := Option.bind_eq_some_iff.mp howner
    exact ⟨walk_of_groupAt? hg, by simp⟩
  · have hwalk := groupAt?_editAt h.walk (·.insert item)
    refine ⟨walk_of_groupAt? hwalk, ?_⟩
    intro place hplace
    obtain rfl : c.target.insertPlace item = place := by simpa using hplace
    obtain ⟨owner, howner, -⟩ := Selection.exists_like_at_insertPlace c.target item
    have htarget : target ⟨editAt c.tree c.path (·.insert item), c.groups,
        some (c.target.insertPlace item), tail⟩ = c.target.insert item := groupAt_eq hwalk
    rw [htarget]
    exact (List.getElem?_eq_some_iff.mp howner).1

theorem walks_of_reaches (h : (start text).Reaches c) : c.Walks := by
  induction h with
  | refl => exact ⟨rfl, by simp [start]⟩
  | tail _ hnext ih => exact ih.next hnext

theorem Walks.grows (h : c.Walks) (hnext : c.Next d) : Grows c.tree d.tree := by
  rcases step_cases hnext with ⟨place, tail, -, -, rfl⟩ | ⟨group, outer, tail, -, -, rfl⟩ |
    ⟨item, tail, hitem, rfl⟩
  · exact Grows.editAt h.walk (Grows.editNested _ place)
  · exact Grows.refl c.tree
  · exact Grows.editAt h.walk (Grows.insert (nested_of_takeCall? hitem) _)

theorem grows_of_reaches (hc : (start text).Reaches c) (h : c.Reaches d) : Grows c.tree d.tree := by
  induction h with
  | refl => exact Grows.refl c.tree
  | tail hd hnext ih => exact ih.trans ((walks_of_reaches (hc.trans hd)).grows hnext)

theorem wellFormed_of_reaches (h : (start text).Reaches c) : Selection.WellFormed c.tree := by
  induction h with
  | refl => trivial
  | @tail c d _ hnext ih =>
      rcases step_cases hnext with ⟨place, tail, -, -, rfl⟩ | ⟨group, outer, tail, -, -, rfl⟩ |
        ⟨item, tail, hitem, rfl⟩
      · exact ih.editAt _ fun s hs => hs.editNested place fun t ht => ht
      · exact ih
      · have hwell := callWellFormed_of_takeCall? hitem
        exact ih.editAt _ fun s hs => Selection.insert_wellFormed hs hwell

/-! The text behind the cursor. -/

theorem run_eq_of_reaches (h : c.Reaches d) : c.run = d.run := by
  induction h with
  | refl => rfl
  | tail _ hnext ih => exact ih.trans (run_of_step hnext)

theorem behind_of_reaches (h : (start text).Reaches c) {place : Nat}
    (hplace : c.last = some place) : c.Behind text place := by
  rcases h.cases_tail with rfl | ⟨b, hb, hnext⟩
  · simp [start] at hplace
  · rcases step_cases hnext with ⟨_, tail, -, -, rfl⟩ | ⟨group, outer, tail, -, -, rfl⟩ |
      ⟨item, tail, hitem, rfl⟩
    · simp at hplace
    · simp at hplace
    · obtain rfl : b.target.insertPlace item = place := by simpa using hplace
      refine ⟨b, item, hb, ⟨hnext, hitem⟩, ?_⟩
      have htarget := groupAt_eq (groupAt?_editAt (walks_of_reaches hb).walk (·.insert item))
      have hwell : Selection.WellFormed b.target := (wellFormed_of_reaches hb).groupAt b.path
      have hlocates := locates_insertPlace hwell (callWellFormed_of_takeCall? hitem)
        (sameSignature_of_takeCall? hitem)
      rwa [← htarget] at hlocates

theorem unclosed_of_reaches (h : (start text).Reaches c) : Unclosed text c.groups c.rest := by
  induction h with
  | refl => exact .nil .nil
  | @tail c d _ hnext ih =>
      rcases step_cases hnext with ⟨place, tail, -, htext, rfl⟩ |
        ⟨group, outer, tail, hgroups, htext, rfl⟩ | ⟨item, tail, hitem, rfl⟩
      · exact .cons place ih htext .nil
      · rw [hgroups] at ih
        cases ih with
        | cons place houter hopen hinner =>
            exact houter.extend fun _ hbalanced => hbalanced.group hopen hinner htext
      · exact ih.extend fun _ hbalanced => hbalanced.item hitem

/-- Every open group has a cursor that stood before its brace. -/
theorem opened_of_reaches (h : (start text).Reaches c) {inner outer : List Group} {group : Group}
    (hgroups : c.groups = inner ++ group :: outer) :
    ∃ b, (start text).Reaches b ∧ b.Reaches c ∧ b.groups = outer ∧ b.last = some group.place ∧
      Text.trimStart b.rest = group.opening := by
  -- All open groups are kept track of, because a closing brace uncovers the next one.
  induction h generalizing inner with
  | refl => simp [start] at hgroups
  | @tail c d hc hnext ih =>
      have later (inner' : List Group) (hgroups : c.groups = inner' ++ group :: outer) :
          ∃ b, (start text).Reaches b ∧ b.Reaches d ∧ b.groups = outer ∧
            b.last = some group.place ∧ Text.trimStart b.rest = group.opening := by
        obtain ⟨b, hb, hbc, hopened⟩ := ih hgroups
        exact ⟨b, hb, hbc.tail hnext, hopened⟩
      rcases step_cases hnext with ⟨place, tail, hplace, htext, rfl⟩ |
        ⟨closed, rest, tail, hclosed, -, rfl⟩ | ⟨item, tail, -, rfl⟩
      · cases inner with
        | nil =>
            obtain ⟨rfl, rfl⟩ := List.cons.inj hgroups
            exact ⟨c, hc, .single hnext, rfl, hplace, htext⟩
        | cons first inner => exact later inner (List.cons.inj hgroups).2
      · have hrest : rest = inner ++ group :: outer := hgroups
        exact later (closed :: inner) (by rw [hclosed, hrest, List.cons_append])
      · exact later inner hgroups

theorem owned_of_reaches (h : (start text).Reaches c) {group : Group} {outer : List Group}
    (hgroups : c.groups = group :: outer) : c.Owned text group outer := by
  have hinnermost : c.groups = [] ++ group :: outer := hgroups
  obtain ⟨b, hb, hbc, houter, hlast, hopening⟩ := opened_of_reaches h hinnermost
  obtain ⟨a, item, ha, hitem, hlocates⟩ := behind_of_reaches hb hlast
  obtain ⟨before, hbefore, hsame⟩ := hlocates.there
  have hthere : callAt? b.tree b.path group.place = some before := by
    rwa [callAt?_eq (walks_of_reaches hb).walk]
  obtain ⟨owner, howner, hhead, -⟩ := grows_of_reaches hb hbc _ _ _ hthere
  refine ⟨a, item, b, owner, ha, hitem, hbc, houter, hlast, hopening, howner, ?_, ?_⟩
  · calc
      owner.sameSignature item = owner.head.sameSignature item := rfl
      _ = before.head.sameSignature item := by rw [hhead]
      _ = true := hsame
  · have hwalk : groupAt? c.tree (places (group :: outer)) = some c.target := by
      rw [← hgroups]
      exact (walks_of_reaches h).walk
    rw [places_cons, groupAt?_concat, ← houter] at hwalk
    change (callAt? c.tree b.path group.place).bind Call.nested = _ at hwalk
    simpa [howner] using hwalk

/-- On every text, before every step. -/
theorem sound_of_reaches (h : (start text).Reaches c) : c.Sound text where
  run_eq := run_eq_of_reaches h
  walk := (walks_of_reaches h).walk
  target_in_bounds := editAt?_eq (walks_of_reaches h).walk
  opening_in_bounds _ hplace :=
    editAt?_concat (walks_of_reaches h).walk ((walks_of_reaches h).last _ hplace)
  behind _ hplace := behind_of_reaches h hplace
  unclosed := unclosed_of_reaches h
  owned _ _ hgroups := owned_of_reaches h hgroups
  kept _ hd := grows_of_reaches h hd

/-- The cursor at the end of a text that leaves a group open. -/
def inOpenGroup : Cursor :=
  ⟨[{ Call.ofName "a" with nested := some [.ofName "b"] }], [⟨0, ['{', 'b']⟩], some 0, []⟩

theorem inOpenGroup_sound :
    (start ['a', '{', 'b']).Reaches inOpenGroup ∧ inOpenGroup.Sound ['a', '{', 'b'] := by
  have hreaches : (start ['a', '{', 'b']).Reaches inOpenGroup := by
    have howner : takeCall? ['a', '{', 'b'] = some (.ofName "a", ['{', 'b']) := by
      with_unfolding_all rfl
    have hmember : takeCall? ['b'] = some (.ofName "b", []) := by
      with_unfolding_all rfl
    refine .head (step_call rfl (by decide) howner) (.head (step_open rfl rfl) (.single ?_))
    exact step_call rfl (by decide) hmember
  exact ⟨hreaches, sound_of_reaches hreaches⟩

end Cursor

end FieldQuery.Schema
