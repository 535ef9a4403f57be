import FieldQuery.Access.Authorizer
import FieldQuery.Json.Part
import FieldQuery.Json.Read

/-!
Policies: tables of the actions allowed on each type. What no entry grants is
denied, and the type `*` stands for every type.
-/

namespace FieldQuery

structure Policy where
  rules : Fields (List Action)

namespace Policy

def empty : Policy := ⟨[]⟩

/-- Grants further actions on a type. -/
def allow (p : Policy) (typeName : String) (actions : List Action) : Policy :=
  ⟨Fields.put p.rules typeName (((Fields.get? p.rules typeName).getD []) ++ actions)⟩

def ofRules (rules : List (String × List Action)) : Policy :=
  rules.foldl (fun p (typeName, actions) => p.allow typeName actions) empty

def grants (p : Policy) (typeName : String) (action : Action) : Bool :=
  match Fields.get? p.rules typeName with
  | some actions => actions.contains action
  | none => false

def allows (p : Policy) (action : Action) (typeName : String) : Bool :=
  p.grants typeName action || p.grants "*" action

def authorizer {Obj : Type} (p : Policy) (domain : Domain Obj) : Authorizer Obj :=
  fun action subject => p.allows action (subject.typeName domain)

def actionOfRaw? (room : Nat) (v : RawJson) : Option Action :=
  (v.asChoice? room).bind Action.ofName?

/-- Actions on a type. Their list stands below two other levels. -/
def actionsOfRaw? : RawJson → Option (List Action) :=
  RawJson.asList? actionOfRaw? (RawJson.nestingLimit - 2)

def ruleOfRaw? (member : Option String × RawJson) : Option (String × List Action) := do
  return (← member.1, ← actionsOfRaw? member.2)

/-- Reads the table; of a repeated type the last list counts. -/
def rulesOfRaw? : RawJson → Option Policy
  | .object members =>
      (members.mapM ruleOfRaw?).map fun rules => ⟨Fields.ofList rules⟩
  | _ => none

/-- Reads an object with the table under `rules`, which stands there once, or
an array of the table alone. -/
def ofRaw? : RawJson → Option Policy
  | .array [rules] => rulesOfRaw? rules
  | .object members =>
      match RawJson.valuesAt? "rules" members with
      | some [rules] => rulesOfRaw? rules
      | _ => none
  | _ => none

def parse? (text : String) : Option Policy := (RawJson.parse? text.toList).bind ofRaw?

end Policy

end FieldQuery
