import FieldQuery.Selection.Param
import FieldQuery.Text.Split

/-!
Selections: ordered trees of calls. Inserting a call whose signature is
already there merges its nested selection into the earlier call.
-/

namespace FieldQuery

/-- One requested operation or attribute. `params` is absent when the call was
written without parentheses, and `nested` when it has no group. -/
structure Call where
  name : String
  label : Option String
  params : Option (List Param)
  nested : Option (List Call)
deriving Inhabited

abbrev Selection := List Call

namespace Call

def ofName (name : String) : Call := ⟨name, none, none, none⟩

/-- A label equal to the name is no label. -/
def withLabel (c : Call) (label : String) : Call :=
  { c with label := if label = c.name then none else some label }

def withParams (c : Call) (params : List Param) : Call := { c with params := some params }

/-- Key under which the result appears. -/
def key (c : Call) : String := c.label.getD c.name

def args (c : Call) : List Param := c.params.getD []

def isParameterized (c : Call) : Bool := c.params.isSome

def isDotted (c : Call) : Bool := c.name.toList.any (· == '.')

/-- Segments of a dotted name. -/
def path (c : Call) : List String := (Text.split '.' c.name.toList).map String.ofList

def sameParams : List Param → List Param → Bool
  | [], [] => true
  | x :: xs, y :: ys => x.same y && sameParams xs ys
  | _, _ => false

def sameOptionalParams : Option (List Param) → Option (List Param) → Bool
  | none, none => true
  | some xs, some ys => sameParams xs ys
  | _, _ => false

/-- Calls with the same signature are one request. -/
def sameSignature (c d : Call) : Bool :=
  c.key == d.key && c.name == d.name && sameOptionalParams c.params d.params

/-- The call as written, without its group. -/
def text (c : Call) : String :=
  let label := match c.label with
    | some label => label ++ ": "
    | none => ""
  let params := match c.params with
    | some params => "(" ++ Text.join ", " (params.map Param.text) ++ ")"
    | none => ""
  label ++ c.name ++ params

end Call

namespace Selection

/-- Place of the call with the signature of `c`. -/
def place? (s : Selection) (c : Call) : Option Nat := s.findIdx? (·.sameSignature c)

/-- Changes the nested selection of the call at a place, opening an empty one
if the call has none. -/
def editNested (s : Selection) (place : Nat) (edit : Selection → Selection) : Selection :=
  s.modify place fun c => { c with nested := some (edit (c.nested.getD [])) }

mutual

/-- The selection with a call inserted. A call without a group never drops an
earlier group, and an empty group opens one. -/
def withCall (s : Selection) : Call → Selection
  | ⟨name, label, params, nested⟩ =>
      match s.place? ⟨name, label, params, nested⟩ with
      | none => s ++ [⟨name, label, params, nested⟩]
      | some place =>
          match nested with
          | none => s
          | some calls => s.editNested place fun present => withCalls present calls

def withCalls (s : Selection) : List Call → Selection
  | [] => s
  | c :: rest => withCalls (withCall s c) rest

end

def insert (s : Selection) (c : Call) : Selection := s.withCall c

/-- Place of an inserted call. -/
def insertPlace (s : Selection) (c : Call) : Nat := (s.place? c).getD s.length

/-- Inserts the calls of one selection into another, in order. -/
def merge (s t : Selection) : Selection := s.withCalls t

def ofCalls (calls : List Call) : Selection := merge [] calls

/-- First call under a key. -/
def get? (s : Selection) (key : String) : Option Call := s.find? (·.key == key)

mutual

def sameCall : Call → Call → Bool
  | ⟨name, label, params, nested⟩, d =>
      name == d.name && label == d.label && Call.sameOptionalParams params d.params &&
        match nested, d.nested with
        | none, none => true
        | some calls, some others => same calls others
        | _, _ => false

/-- Equality of trees up to numerically equal parameters. -/
def same : List Call → List Call → Bool
  | [], [] => true
  | c :: calls, d :: others => sameCall c d && same calls others
  | _, _ => false

end

mutual

def callCount : Call → Nat
  | ⟨_, _, _, none⟩ => 1
  | ⟨_, _, _, some calls⟩ => totalCalls calls + 1

/-- Calls at all levels. -/
def totalCalls : List Call → Nat
  | [] => 0
  | c :: rest => callCount c + totalCalls rest

end

mutual

def callDepth : Call → Nat
  | ⟨_, _, _, none⟩ => 0
  | ⟨_, _, _, some calls⟩ => depth calls + 1

/-- Levels of nested selections below the root. -/
def depth : List Call → Nat
  | [] => 0
  | c :: rest => max (callDepth c) (depth rest)

end

end Selection

/-- `.select` of a call list merges like insertion. -/
def Call.withNested (c : Call) (calls : List Call) : Call :=
  { c with nested := some (Selection.ofCalls calls) }

end FieldQuery
