import FieldQuery.Schema.Item

/-!
The grammar of schema texts, and the selection that a text stands for by it.
Every relation takes what is read from the front of a text and names the text
that remains. Nothing here depends on how texts are compiled.
-/

namespace FieldQuery.Schema

/-- An item as it is written, with the items of its group. -/
structure Item where
  label : Option (List Char)
  name : List Char
  params : Option (List Char)
  group : Option (List Item)

/-- A name without empty segments that the text after it does not lengthen. -/
structure NameBefore (name rest : List Char) : Prop where
  chars : ∀ c ∈ name, isNameChar c = true
  segments : ∀ segment ∈ Text.split '.' name, segment ≠ []
  longest : ∀ c ∈ rest.head?, isNameChar c = false

def AllBlank (text : List Char) : Prop := ∀ c ∈ text, Text.isBlank c = true

inductive SpellsLabel : Option (List Char) → List Char → List Char → Prop where
  | absent {text : List Char} : SpellsLabel none text text
  | present {label gap spacing rest : List Char} :
      NameBefore label (gap ++ ':' :: (spacing ++ rest)) →
      (∀ c ∈ gap, isGap c = true) → (∀ c ∈ spacing, isSpacing c = true) →
      SpellsLabel (some label) (label ++ (gap ++ ':' :: (spacing ++ rest))) rest

inductive SpellsParams : Option (List Char) → List Char → List Char → Prop where
  | absent {text : List Char} : SpellsParams none text text
  | present {params rest : List Char} : ')' ∉ params →
      SpellsParams (some params) ('(' :: (params ++ ')' :: rest)) rest

/-- An item up to its group. -/
inductive SpellsHead (label : Option (List Char)) (name : List Char)
    (params : Option (List Char)) : List Char → List Char → Prop where
  | head {text afterName rest : List Char} : SpellsLabel label text (name ++ afterName) →
      NameBefore name afterName → SpellsParams params afterName rest →
      SpellsHead label name params text rest

mutual

inductive SpellsItem : Item → List Char → List Char → Prop where
  | item {label params : Option (List Char)} {name : List Char} {group : Option (List Item)}
      {text afterHead rest : List Char} : SpellsHead label name params text afterHead →
      SpellsGroup group afterHead rest → SpellsItem ⟨label, name, params, group⟩ text rest

inductive SpellsGroup : Option (List Item) → List Char → List Char → Prop where
  | absent {text : List Char} : SpellsGroup none text text
  | present {items : List Item} {before text after rest : List Char} : AllBlank before →
      SpellsItems items text (after ++ '}' :: rest) → AllBlank after →
      SpellsGroup (some items) (before ++ '{' :: text) rest

inductive SpellsItems : List Item → List Char → List Char → Prop where
  | nil {text : List Char} : SpellsItems [] text text
  | cons {item : Item} {items : List Item} {before text afterItem rest : List Char} :
      AllBlank before → SpellsItem item text afterItem → SpellsItems items afterItem rest →
      SpellsItems (item :: items) (before ++ text) rest

end

/-- A whole text: items, with blanks before, between and after them. -/
def Spells (items : List Item) (text : List Char) : Prop :=
  ∃ after, SpellsItems items text after ∧ AllBlank after

/-- The call of an item without its group. A label that repeats the name is
no label. -/
def headCall (label : Option (List Char)) (name : List Char)
    (params : Option (List Char)) : Call where
  name := String.ofList name
  label := if label = some name then none else label.map String.ofList
  params := params.map splitParams
  nested := none

mutual

/-- The call of an item: its group is the selection of the items in it. -/
def Item.call : Item → Call
  | ⟨label, name, params, none⟩ => headCall label name params
  | ⟨label, name, params, some items⟩ =>
      { headCall label name params with nested := some (insertItems [] items) }

/-- Inserts the calls of the items in order. -/
def insertItems (s : Selection) : List Item → Selection
  | [] => s
  | item :: items => insertItems (s.insert item.call) items

end

/-- The selection that items stand for. -/
def selectionOf (items : List Item) : Selection := insertItems [] items

end FieldQuery.Schema
