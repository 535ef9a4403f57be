import FieldQuery.Proofs.Schema.Cursor
import FieldQuery.Proofs.Selection.Numbers

/-!
Paths of places that may lead nowhere, and trees that grow. Where a path leads
through calls that are there and have groups, an edit at its end indexes inside
of every selection on the way. Edits that only add keep every call at its
places.
-/

namespace FieldQuery.Schema

/-- Follows a path of places through calls that are there and have a group. -/
def groupAt? (tree : Selection) : List Nat → Option Selection
  | [] => some tree
  | place :: path => tree[place]?.bind fun c => c.nested.bind fun inner => groupAt? inner path

/-- The call at a place of the selection that a path leads to. -/
def callAt? (tree : Selection) (path : List Nat) (place : Nat) : Option Call :=
  (groupAt? tree path).bind (·[place]?)

/-- Edits like `editAt`, unless a place is out of the bounds of its selection. -/
def editAt? (tree : Selection) : List Nat → (Selection → Selection) → Option Selection
  | [], edit => some (edit tree)
  | place :: path, edit =>
      tree[place]?.bind fun c =>
        (editAt? (c.nested.getD []) path edit).map fun inner =>
          tree.set place { c with nested := some inner }

/-- Every call of the first tree is at the same places in the second one, under
its label and name and with its parameters, and has a group if it had one. -/
def Grows (s t : Selection) : Prop :=
  ∀ path place c, callAt? s path place = some c →
    ∃ d, callAt? t path place = some d ∧ d.head = c.head ∧ (c.nested.isSome → d.nested.isSome)

/-! Walks. -/

variable {tree g : Selection} {path : List Nat}

theorem groupAt?_cons {place : Nat} (h : groupAt? tree (place :: path) = some g) :
    ∃ c inner, tree[place]? = some c ∧ c.nested = some inner ∧ groupAt? inner path = some g := by
  obtain ⟨c, hc, h⟩ := Option.bind_eq_some_iff.mp h
  obtain ⟨inner, hinner, h⟩ := Option.bind_eq_some_iff.mp h
  exact ⟨c, inner, hc, hinner, h⟩

theorem groupAt?_concat (tree : Selection) (path : List Nat) (place : Nat) :
    groupAt? tree (path ++ [place]) = (callAt? tree path place).bind Call.nested := by
  induction path generalizing tree with
  | nil => simp [groupAt?, callAt?]
  | cons first path ih => simp [groupAt?, callAt?, ih, Option.bind_assoc]

theorem groupAt_eq (h : groupAt? tree path = some g) : groupAt tree path = g := by
  induction path generalizing tree with
  | nil => exact Option.some.inj h
  | cons place path ih =>
      obtain ⟨c, inner, hc, hinner, h⟩ := groupAt?_cons h
      simpa [groupAt, hc, hinner] using ih h

theorem groupAt?_editAt (h : groupAt? tree path = some g) (edit : Selection → Selection) :
    groupAt? (editAt tree path edit) path = some (edit g) := by
  induction path generalizing tree with
  | nil => exact congrArg (fun s => some (edit s)) (Option.some.inj h)
  | cons place path ih =>
      obtain ⟨c, inner, hc, hinner, h⟩ := groupAt?_cons h
      simpa [groupAt?, editAt, Selection.editNested, hc, hinner] using ih h

theorem callAt?_eq (h : groupAt? tree path = some g) (place : Nat) :
    callAt? tree path place = g[place]? := by
  rw [callAt?, h, Option.bind_some]

/-- An edit stays in bounds if it does so from the end of a walk on. -/
theorem editAt?_append (h : groupAt? tree path = some g) {more : List Nat}
    {edit : Selection → Selection} (hmore : editAt? g more edit = some (editAt g more edit)) :
    editAt? tree (path ++ more) edit = some (editAt tree (path ++ more) edit) := by
  induction path generalizing tree with
  | nil =>
      obtain rfl := Option.some.inj h
      exact hmore
  | cons place path ih =>
      obtain ⟨c, inner, hc, hinner, h⟩ := groupAt?_cons h
      simp [editAt?, editAt, Selection.editNested, hc, hinner, ih h, List.modify_eq_set]

theorem editAt?_eq (h : groupAt? tree path = some g) (edit : Selection → Selection) :
    editAt? tree path edit = some (editAt tree path edit) := by
  have hend : editAt? g [] edit = some (editAt g [] edit) := rfl
  simpa using editAt?_append h hend

theorem editAt?_concat (h : groupAt? tree path = some g) {place : Nat} (hplace : place < g.length)
    (edit : Selection → Selection) :
    editAt? tree (path ++ [place]) edit = some (editAt tree (path ++ [place]) edit) := by
  apply editAt?_append h
  simp [editAt?, editAt, Selection.editNested, List.modify_eq_set, hplace]

/-! Growth. -/

namespace Grows

variable {s t u : Selection}

theorem refl (s : Selection) : Grows s s := fun _ _ c hc => ⟨c, hc, rfl, id⟩

theorem trans (hst : Grows s t) (htu : Grows t u) : Grows s u := by
  intro path place c hc
  obtain ⟨d, hd, hdc, hnested⟩ := hst path place c hc
  obtain ⟨e, he, hed, hnested'⟩ := htu path place d hd
  exact ⟨e, he, hed.trans hdc, hnested' ∘ hnested⟩

/-- Growth along one level. -/
theorem of_level (h : ∀ (place : Nat) (c : Call), s[place]? = some c →
      ∃ d : Call, t[place]? = some d ∧ d.head = c.head ∧
        ∀ inner, c.nested = some inner → ∃ inner', d.nested = some inner' ∧ Grows inner inner') :
    Grows s t := by
  intro path place c hc
  cases path with
  | nil =>
      obtain ⟨d, hd, hdc, hnested⟩ := h place c hc
      refine ⟨d, hd, hdc, ?_⟩
      intro hsome
      obtain ⟨inner, hinner⟩ := Option.isSome_iff_exists.mp hsome
      obtain ⟨inner', hinner', -⟩ := hnested inner hinner
      simp [hinner']
  | cons first path =>
      obtain ⟨g, hg, hc⟩ := Option.bind_eq_some_iff.mp hc
      obtain ⟨b, inner, hb, hinner, hg⟩ := groupAt?_cons hg
      obtain ⟨d, hd, -, hnested⟩ := h first b hb
      obtain ⟨inner', hinner', hgrows⟩ := hnested inner hinner
      obtain ⟨e, he, hec⟩ := hgrows path place c (by simp [callAt?, hg, hc])
      exact ⟨e, by simpa [callAt?, groupAt?, hd, hinner'] using he, hec⟩

theorem editAt (h : groupAt? tree path = some g) {edit : Selection → Selection}
    (hedit : Grows g (edit g)) : Grows tree (Schema.editAt tree path edit) := by
  induction path generalizing tree with
  | nil =>
      obtain rfl := Option.some.inj h
      exact hedit
  | cons place path ih =>
      obtain ⟨c, inner, hc, hinner, h⟩ := groupAt?_cons h
      apply of_level
      intro i d hd
      by_cases hi : place = i
      · subst hi
        obtain rfl := Option.some.inj (hc.symm.trans hd)
        refine ⟨{ c with nested := some (Schema.editAt inner path edit) }, ?_, rfl, ?_⟩
        · simp [Schema.editAt, Selection.editNested, hc, hinner]
        · intro inner' hinner'
          obtain rfl := Option.some.inj (hinner.symm.trans hinner')
          exact ⟨_, rfl, ih h⟩
      · refine ⟨d, ?_, rfl, fun inner' hinner' => ⟨inner', hinner', refl inner'⟩⟩
        simp [Schema.editAt, Selection.editNested, hi, hd]

theorem insert {c : Call} (hflat : c.nested = none) (s : Selection) : Grows s (s.insert c) := by
  apply of_level
  intro place d hd
  refine ⟨d, ?_, rfl, fun inner hinner => ⟨inner, hinner, refl inner⟩⟩
  rw [Selection.insert, Selection.withCall_eq]
  cases s.place? c with
  | none => exact (List.getElem?_append_left (List.getElem?_eq_some_iff.mp hd).1).trans hd
  | some found =>
      have habsorb : (fun e : Call => e.absorb c) = id := by
        funext e
        simp [Call.absorb, hflat]
      simpa [habsorb] using hd

/-- Opening the group of a call. -/
theorem editNested (s : Selection) (place : Nat) : Grows s (s.editNested place id) := by
  apply of_level
  intro i d hd
  by_cases hi : place = i
  · subst hi
    refine ⟨{ d with nested := some (d.nested.getD []) }, ?_, rfl, ?_⟩
    · simp [Selection.editNested, hd]
    · intro inner hinner
      exact ⟨inner, by simp [hinner], refl inner⟩
  · refine ⟨d, ?_, rfl, fun inner hinner => ⟨inner, hinner, refl inner⟩⟩
    simp [Selection.editNested, hi, hd]

end Grows

end FieldQuery.Schema

namespace FieldQuery.Selection

/-! Selections without repeated signatures. -/

theorem WellFormed.groupAt {tree : Selection} (h : WellFormed tree) (path : List Nat) :
    WellFormed (Schema.groupAt tree path) := by
  induction path generalizing tree with
  | nil => exact h
  | cons place path ih =>
      rw [Schema.groupAt]
      split
      next c hc => exact ih (WellFormed.nested (h.mem c (List.mem_of_getElem? hc)))
      next => trivial

theorem WellFormed.editNested {s : Selection} (h : WellFormed s) (place : Nat)
    {edit : Selection → Selection} (hedit : ∀ t, WellFormed t → WellFormed (edit t)) :
    WellFormed (s.editNested place edit) := by
  induction s generalizing place with
  | nil => simpa [Selection.editNested] using h
  | cons c rest ih =>
      obtain ⟨hc, hdistinct, hrest⟩ := h
      cases place with
      | zero => exact ⟨hedit _ (WellFormed.nested hc), hdistinct, hrest⟩
      | succ place =>
          refine ⟨hc, ?_, ih hrest place⟩
          intro d hd
          obtain ⟨i, hi⟩ := List.getElem?_of_mem (l := rest.modify place _) hd
          rw [List.getElem?_modify] at hi
          obtain ⟨e, he, rfl⟩ := Option.map_eq_some_iff.mp hi
          have hce := hdistinct e (List.mem_of_getElem? he)
          split
          · exact hce
          · exact hce

theorem WellFormed.editAt {tree : Selection} (h : WellFormed tree) (path : List Nat)
    {edit : Selection → Selection} (hedit : ∀ t, WellFormed t → WellFormed (edit t)) :
    WellFormed (Schema.editAt tree path edit) := by
  induction path generalizing tree with
  | nil => exact hedit tree h
  | cons place path ih => exact h.editNested place fun t ht => ih ht

/-- Calls of one signature stand at one place. -/
theorem WellFormed.place_unique {s : Selection} (h : WellFormed s) {i j : Nat} {c d : Call}
    (hc : s[i]? = some c) (hd : s[j]? = some d) (hcd : c.sameSignature d = true) : i = j := by
  induction s generalizing i j with
  | nil => simp at hc
  | cons e rest ih =>
      obtain ⟨-, hdistinct, hrest⟩ := h
      cases i with
      | zero =>
          cases j with
          | zero => rfl
          | succ j =>
              obtain rfl : e = c := by simpa using hc
              simp [hdistinct d (List.mem_of_getElem? (by simpa using hd))] at hcd
      | succ i =>
          cases j with
          | zero =>
              obtain rfl : e = d := by simpa using hd
              have hdc := Call.sameSignature_symm hcd
              simp [hdistinct c (List.mem_of_getElem? (by simpa using hc))] at hdc
          | succ j => exact congrArg (· + 1) (ih hrest (by simpa using hc) (by simpa using hd))

end FieldQuery.Selection
