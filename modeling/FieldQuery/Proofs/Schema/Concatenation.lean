import FieldQuery.Proofs.Schema.Continuation
import FieldQuery.Proofs.Schema.Head
import FieldQuery.Proofs.Selection.Union

/-!
Compiling texts in a row. Two schemas with blanks between them compile to the
first selection with the calls of the second inserted, so repeating a schema
changes nothing: numbers in a compiled selection are finite, and each call is
recognized as one that is there already.
-/

namespace FieldQuery

namespace Selection

theorem naNFree_of_compile {schema : String} {s : Selection} (h : compile schema = .ok s) :
    s.NaNFree := by
  intro x hx
  simp [Double.isNaN, Schema.isFinite_of_compile h x hx]

theorem merge_eq_foldl (s : Selection) (calls : List Call) :
    s.merge calls = calls.foldl insert s := by
  induction calls generalizing s with
  | nil => rfl
  | cons c rest ih => exact ih (s.insert c)

end Selection

/-- Items in a row stand for the first selection with the second merged in. -/
theorem Schema.selectionOf_append (items more : List Schema.Item) :
    selectionOf (items ++ more) = (selectionOf items).merge (selectionOf more) := by
  have hmore : (selectionOf items).merge (selectionOf more) =
      (selectionOf items).merge (more.map Item.call) := by
    rw [selectionOf, selectionOf, insertItems_eq_merge, insertItems_eq_merge]
    exact (Selection.merge_assoc (t := []) trivial (callWellFormed_calls more) _).symm
  rw [hmore, selectionOf, selectionOf, insertItems_eq_merge, insertItems_eq_merge, List.map_append,
    Selection.merge_eq_foldl, Selection.merge_eq_foldl, Selection.merge_eq_foldl, List.foldl_append]

theorem compile_append {schema next blank : String} {s t : Selection}
    (hs : compile schema = .ok s) (ht : compile next = .ok t) (hne : blank ≠ "")
    (hblank : Schema.AllBlank blank.toList) :
    compile (schema ++ blank ++ next) = .ok (s.merge t) := by
  obtain ⟨items, hitems, rfl⟩ := Schema.exists_spells_of_compile hs
  obtain ⟨more, hmore, rfl⟩ := Schema.exists_spells_of_compile ht
  rw [← Schema.selectionOf_append]
  apply Schema.Spells.compile_eq
  rw [String.toList_append, String.toList_append]
  exact hitems.append hmore hblank (by simpa [String.toList_eq_nil_iff] using hne)

/-- Two schemas with blanks between them compile to the first selection with
the root calls of the second inserted in order; a schema repeated after blanks
compiles to what it compiles to alone. -/
theorem compile_blank_between {schema next blank : String} {s t : Selection}
    (hs : compile schema = .ok s) (ht : compile next = .ok t) (hne : blank ≠ "")
    (hblank : ∀ c ∈ blank.toList, Text.isBlank c = true) :
    compile (schema ++ blank ++ next) = .ok (t.foldl Selection.insert s) ∧
      compile (schema ++ blank ++ schema) = .ok s := by
  constructor
  · rw [compile_append hs ht hne hblank, Selection.merge_eq_foldl]
  · rw [compile_append hs hs hne hblank,
      Selection.merge_self (Selection.wellFormed_of_compile hs) (Selection.naNFree_of_compile hs)]

/-- A call with a group of one call, as it is written. -/
theorem Schema.spells_user : Spells [⟨none, ['u', 's', 'e', 'r'], none,
    some [⟨none, ['i', 'd'], none, none⟩]⟩] "user \x7b id \x7d".toList := by
  have huser : NameBefore ['u', 's', 'e', 'r'] [' ', '{', ' ', 'i', 'd', ' ', '}'] :=
    .of_all (by decide +kernel) (by decide) (by decide +kernel)
  have hid : NameBefore ['i', 'd'] [' ', '}'] :=
    .of_all (by decide +kernel) (by decide) (by decide +kernel)
  have hnone : AllBlank [] := by simp [AllBlank]
  have hblank : AllBlank [' '] := by simp [AllBlank, Text.isBlank]
  have hinner : SpellsItems [⟨none, ['i', 'd'], none, none⟩] ([' '] ++ ['i', 'd', ' ', '}'])
      ([' '] ++ '}' :: []) :=
    .cons hblank (.item (.head .absent hid .absent) .absent) .nil
  have hgroup : SpellsGroup (some [⟨none, ['i', 'd'], none, none⟩])
      ([' '] ++ '{' :: ([' '] ++ ['i', 'd', ' ', '}'])) [] :=
    .present hblank hinner hblank
  have hitem := SpellsItem.item (.head .absent huser .absent) hgroup
  exact ⟨[], .cons hnone hitem .nil, hnone⟩

theorem user_completed :
    compile ("user" ++ "\n" ++ "user \x7b id \x7d") =
        .ok [(Call.ofName "user").withNested [.ofName "id"]] ∧
      compile ("user" ++ "\n" ++ "user") = .ok [.ofName "user"] := by
  have hflat : compile "user" = .ok [.ofName "user"] := by with_unfolding_all rfl
  have hgrouped := Schema.spells_user.compile_eq
  have hblank : "\n".toList.all Text.isBlank = true := by decide
  exact compile_blank_between hflat hgrouped (by decide) (List.all_eq_true.mp hblank)

end FieldQuery
