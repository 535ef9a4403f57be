import FieldQuery.Proofs.Schema.Reading
import FieldQuery.Schema.Compile

/-!
Edits at the end of a path of places, and what one step of the cursor can do.
-/

namespace FieldQuery.Schema

/-! Editing along a path. -/

theorem editAt_editAt (path : List Nat) (tree : Selection) (f g : Selection → Selection) :
    editAt (editAt tree path f) path g = editAt tree path fun inner => g (f inner) := by
  induction path generalizing tree with
  | nil => rfl
  | cons place path ih =>
      simp only [editAt, Selection.editNested, List.modify_modify_eq]
      congr 1
      funext c
      simp [ih]

theorem editAt_concat (path : List Nat) (place : Nat) (tree : Selection)
    (f : Selection → Selection) :
    editAt tree (path ++ [place]) f = editAt tree path (·.editNested place f) := by
  induction path generalizing tree with
  | nil => rfl
  | cons first path ih => simp [editAt, ih]

/-- Only the selection at the end of the path matters to an edit. -/
theorem editAt_congr {path : List Nat} {tree : Selection} {f g : Selection → Selection}
    (h : f (groupAt tree path) = g (groupAt tree path)) : editAt tree path f = editAt tree path g := by
  induction path generalizing tree with
  | nil => exact h
  | cons place path ih =>
      apply List.ext_getElem?
      intro i
      simp only [editAt, Selection.editNested, List.getElem?_modify]
      by_cases hi : place = i
      · subst hi
        cases hc : tree[place]? with
        | none => rfl
        | some c =>
            have hinner : editAt (c.nested.getD []) path f = editAt (c.nested.getD []) path g :=
              ih (by simpa [groupAt, hc] using h)
            simp [hinner]
      · simp [hi]

/-- Places that lead from the root to the innermost of open groups. -/
def places (groups : List Group) : List Nat := (groups.map Group.place).reverse

theorem places_cons (group : Group) (groups : List Group) :
    places (group :: groups) = places groups ++ [group.place] := by
  simp [places]

namespace Cursor

/-! What one step can do. -/

theorem step_open {c : Cursor} {place : Nat} {tail : List Char}
    (htext : Text.trimStart c.rest = '{' :: tail) (hlast : c.last = some place) :
    c.step = .ok (some ⟨editAt c.tree c.path fun group => group.editNested place id,
      ⟨place, '{' :: tail⟩ :: c.groups, none, tail⟩) := by
  simp [step, htext, hlast]

theorem step_close {c : Cursor} {group : Group} {outer : List Group} {tail : List Char}
    (htext : Text.trimStart c.rest = '}' :: tail) (hgroups : c.groups = group :: outer) :
    c.step = .ok (some ⟨c.tree, outer, none, tail⟩) := by
  simp [step, htext, hgroups]

theorem step_call {c : Cursor} {first : Char} {text tail : List Char} {call : Call}
    (htext : Text.trimStart c.rest = first :: text) (hfirst : isNameChar first = true)
    (hcall : takeCall? (first :: text) = some (call, tail)) :
    c.step = .ok (some ⟨editAt c.tree c.path fun group => group.insert call, c.groups,
      some (c.target.insertPlace call), tail⟩) := by
  have hopen : first ≠ '{' := by
    rintro rfl
    exact absurd hfirst (by decide)
  have hclose : first ≠ '}' := by
    rintro rfl
    exact absurd hfirst (by decide)
  simp [step, htext, hopen, hclose, hcall]

theorem step_end {c : Cursor} (htext : Text.trimStart c.rest = []) : c.step = .ok none := by
  simp [step, htext]

/-- A step opens a group, closes one or reads a call. -/
theorem step_cases {c next : Cursor} (h : c.step = .ok (some next)) :
    (∃ place tail, c.last = some place ∧ Text.trimStart c.rest = '{' :: tail ∧
      next = ⟨editAt c.tree c.path fun group => group.editNested place id,
        ⟨place, '{' :: tail⟩ :: c.groups, none, tail⟩) ∨
    (∃ group outer tail, c.groups = group :: outer ∧ Text.trimStart c.rest = '}' :: tail ∧
      next = ⟨c.tree, outer, none, tail⟩) ∨
    (∃ call tail, takeCall? (Text.trimStart c.rest) = some (call, tail) ∧
      next = ⟨editAt c.tree c.path fun group => group.insert call, c.groups,
        some (c.target.insertPlace call), tail⟩) := by
  unfold step at h
  generalize Text.trimStart c.rest = rest at h ⊢
  dsimp only at h
  split at h
  next => simp at h
  next tail =>
    cases hlast : c.last with
    | none => simp [hlast] at h
    | some place => exact Or.inl ⟨place, tail, rfl, rfl, by simpa [hlast] using h.symm⟩
  next tail =>
    cases hgroups : c.groups with
    | nil => simp [hgroups] at h
    | cons group outer =>
        exact Or.inr (Or.inl ⟨group, outer, tail, rfl, rfl, by simpa [hgroups] using h.symm⟩)
  next =>
    cases hcall : takeCall? rest with
    | none => simp [hcall] at h
    | some found =>
        exact Or.inr (Or.inr ⟨found.1, found.2, rfl, by simpa [hcall] using h.symm⟩)

theorem trimStart_of_step_end {c : Cursor} (h : c.step = .ok none) :
    Text.trimStart c.rest = [] := by
  unfold step at h
  generalize Text.trimStart c.rest = rest at h ⊢
  dsimp only at h
  split at h
  next => rfl
  next => split at h <;> simp at h
  next => split at h <;> simp at h
  next => split at h <;> simp at h

theorem run_of_step {c next : Cursor} (h : c.step = .ok (some next)) : c.run = next.run := by
  rw [run]
  split
  next hstep => simp [h] at hstep
  next hstep => simp [h] at hstep
  next hstep =>
    rw [h] at hstep
    cases hstep
    rfl

theorem run_of_step_error {c : Cursor} {fault : Fault} (h : c.step = .error fault) :
    c.run = .error fault := by
  rw [run]
  split
  next hstep =>
    rw [h] at hstep
    cases hstep
    rfl
  next hstep => simp [h] at hstep
  next hstep => simp [h] at hstep

theorem run_of_step_end {c : Cursor} (h : c.step = .ok none) : c.run = c.finish := by
  rw [run]
  split
  next hstep => simp [h] at hstep
  next => rfl
  next hstep => simp [h] at hstep

theorem run_open (tree : Selection) (groups : List Group) (place : Nat) (tail : List Char) :
    (Cursor.mk tree groups (some place) ('{' :: tail)).run =
      (Cursor.mk (editAt tree (places groups) (·.editNested place id))
        (⟨place, '{' :: tail⟩ :: groups) none tail).run :=
  run_of_step (step_open (Text.trimStart_cons (by decide) tail) rfl)

theorem run_close (tree : Selection) (group : Group) (groups : List Group) (last : Option Nat)
    (tail : List Char) :
    (Cursor.mk tree (group :: groups) last ('}' :: tail)).run =
      (Cursor.mk tree groups none tail).run :=
  run_of_step (step_close (Text.trimStart_cons (by decide) tail) rfl)

theorem run_call {first : Char} {text tail : List Char} {call : Call}
    (hfirst : isNameChar first = true) (hcall : takeCall? (first :: text) = some (call, tail))
    (tree : Selection) (groups : List Group) (last : Option Nat) :
    (Cursor.mk tree groups last (first :: text)).run =
      (Cursor.mk (editAt tree (places groups) (·.insert call)) groups
        (some ((groupAt tree (places groups)).insertPlace call)) tail).run :=
  run_of_step
    (step_call (Text.trimStart_cons (isBlank_of_isNameChar hfirst) text) hfirst hcall)

/-- Blanks in front of the text change nothing. -/
theorem run_blank {before : List Char} (h : AllBlank before) (tree : Selection)
    (groups : List Group) (last : Option Nat) (text : List Char) :
    (Cursor.mk tree groups last (before ++ text)).run = (Cursor.mk tree groups last text).run := by
  have hstep : (Cursor.mk tree groups last (before ++ text)).step =
      (Cursor.mk tree groups last text).step := by
    simp only [step, Text.trimStart_append h, path, target]
  cases htext : (Cursor.mk tree groups last text).step with
  | error fault => rw [run_of_step_error htext, run_of_step_error (hstep.trans htext)]
  | ok next =>
      cases next with
      | none =>
          rw [run_of_step_end htext, run_of_step_end (hstep.trans htext)]
          rfl
      | some next => rw [run_of_step htext, run_of_step (hstep.trans htext)]

end Cursor

end FieldQuery.Schema
