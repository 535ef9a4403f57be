import FieldQuery.Selection.Basic

/-!
Eager-load hints: the relations that a selection is about to read, as a tree
in which each level names a relation once.
-/

namespace FieldQuery

structure Hint where
  name : String
  nested : List Hint
deriving Inhabited

abbrev Hints := List Hint

namespace Hints

def get? (hints : Hints) (name : String) : Option Hints :=
  (hints.find? (·.name == name)).map Hint.nested

def names (hints : Hints) : List String := hints.map Hint.name

mutual

/-- Adds a relation, merging what lies under it with what is already there. -/
def withHint (hints : Hints) : Hint → Hints
  | ⟨name, nested⟩ =>
      match hints.findIdx? (·.name == name) with
      | none => hints ++ [⟨name, nested⟩]
      | some place => hints.modify place fun h => { h with nested := withHints h.nested nested }

def withHints (hints : Hints) : List Hint → Hints
  | [] => hints
  | h :: rest => withHints (withHint hints h) rest

end

mutual

def hintText : Hint → String
  | ⟨name, nested⟩ => match nested with
    | [] => name
    | _ :: _ => name ++ "(" ++ Text.join ", " (hintTexts nested) ++ ")"

def hintTexts : List Hint → List String
  | [] => []
  | h :: rest => hintText h :: hintTexts rest

end

def text (hints : Hints) : String := Text.join ", " (hintTexts hints)

end Hints

namespace Selection

mutual

/-- Calls with a group are relations, unless they have parameters or a dotted
name: those are left to whoever resolves them. -/
def callHints (hints : Hints) : Call → Hints
  | ⟨_, _, _, none⟩ => hints
  | ⟨name, label, params, some calls⟩ =>
      if (⟨name, label, params, some calls⟩ : Call).isParameterized ||
          (⟨name, label, params, some calls⟩ : Call).isDotted then hints
      else hints.withHint ⟨name, hintsFrom [] calls⟩

def hintsFrom (hints : Hints) : List Call → Hints
  | [] => hints
  | c :: rest => hintsFrom (callHints hints c) rest

end

/-- Relations whose records the selection reads. -/
def hints (s : Selection) : Hints := hintsFrom [] s

end Selection

/-- Relations read from the result of a call. -/
def Call.hints (c : Call) : Hints := Selection.hints (c.nested.getD [])

end FieldQuery
