import FieldQuery.Selection.Hints

/-!
Outlines of selections: a line for every call, indented by two blanks a level.
-/

namespace FieldQuery.Selection

/-- What an outline says about the calls below a call: the relations that they
read, or nothing. -/
def eagerNote (withHints : Bool) (nested : Selection) : String :=
  if withHints && !(hints nested).isEmpty then "  eager: " ++ (hints nested).text else ""

mutual

/-- Lines of a call at a level and of the calls below it. -/
def callOutline (withHints : Bool) (level : Nat) : Call → List String
  | ⟨name, label, params, nested⟩ =>
      let line := String.ofList (List.replicate (2 * level) ' ') ++
        (⟨name, label, params, nested⟩ : Call).text
      match nested with
      | none => [line]
      | some calls => (line ++ eagerNote withHints calls) :: outlineAt withHints (level + 1) calls

def outlineAt (withHints : Bool) (level : Nat) : List Call → List String
  | [] => []
  | c :: rest => callOutline withHints level c ++ outlineAt withHints level rest

end

def outline (withHints : Bool) (s : Selection) : List String := outlineAt withHints 0 s

end FieldQuery.Selection
