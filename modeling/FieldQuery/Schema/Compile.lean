import FieldQuery.Failure
import FieldQuery.Schema.Item

/-!
Compiling schema text into a selection. A cursor walks over the text and keeps
a stack of open groups; every item is inserted into the innermost one, where
it merges with an earlier call of the same signature.
-/

namespace FieldQuery.Schema

inductive Reason where
  | groupWithoutCall
  | unmatchedClose
  | expectedCall
  | unterminatedGroup
deriving DecidableEq

def Reason.message : Reason → String
  | .groupWithoutCall => "group without a preceding call"
  | .unmatchedClose => "unmatched '\x7d'"
  | .expectedCall => "expected a call"
  | .unterminatedGroup => "unterminated group"

/-- Why a text does not compile, and the text from the point of failure on. -/
structure Fault where
  reason : Reason
  rest : List Char
deriving DecidableEq

/-- An open group: the place of its call in the enclosing selection, and the
text from its brace on. -/
structure Group where
  place : Nat
  opening : List Char

/-- The tree so far, the open groups with the innermost first, the place of
the call just read in the innermost group, and the text still to read. -/
structure Cursor where
  tree : Selection
  groups : List Group
  last : Option Nat
  rest : List Char

/-- The selection that a path of places leads to. -/
def groupAt (tree : Selection) : List Nat → Selection
  | [] => tree
  | place :: path =>
      match tree[place]? with
      | some c => groupAt (c.nested.getD []) path
      | none => []

/-- Changes the selection that a path of places leads to. -/
def editAt (tree : Selection) : List Nat → (Selection → Selection) → Selection
  | [], edit => edit tree
  | place :: path, edit => tree.editNested place fun inner => editAt inner path edit

namespace Cursor

def start (text : List Char) : Cursor := ⟨[], [], none, text⟩

/-- Places that lead from the root to the innermost open group. -/
def path (c : Cursor) : List Nat := (c.groups.map Group.place).reverse

/-- The innermost open group. -/
def target (c : Cursor) : Selection := groupAt c.tree c.path

/-- Reads one brace or call; `none` at the end of the text. -/
def step (c : Cursor) : Except Fault (Option Cursor) :=
  let rest := Text.trimStart c.rest
  match rest with
  | [] => .ok none
  | '{' :: tail =>
      match c.last with
      | none => .error ⟨.groupWithoutCall, rest⟩
      | some place =>
          let tree := editAt c.tree c.path fun group => group.editNested place id
          .ok (some ⟨tree, ⟨place, rest⟩ :: c.groups, none, tail⟩)
  | '}' :: tail =>
      match c.groups with
      | [] => .error ⟨.unmatchedClose, rest⟩
      | _ :: outer => .ok (some ⟨c.tree, outer, none, tail⟩)
  | _ =>
      match takeCall? rest with
      | none => .error ⟨.expectedCall, rest⟩
      | some (call, tail) =>
          let tree := editAt c.tree c.path fun group => group.insert call
          .ok (some ⟨tree, c.groups, some (c.target.insertPlace call), tail⟩)

/-- The finished tree, if no group is open. -/
def finish (c : Cursor) : Except Fault Selection :=
  match c.groups with
  | [] => .ok c.tree
  | group :: _ => .error ⟨.unterminatedGroup, group.opening⟩

theorem step_shorter {c next : Cursor} (h : c.step = .ok (some next)) :
    next.rest.length < c.rest.length := by
  have htrim : (Text.trimStart c.rest).length ≤ c.rest.length :=
    length_dropWhile_le Text.isBlank c.rest
  unfold step at h
  generalize Text.trimStart c.rest = rest at h htrim
  dsimp only at h
  split at h
  next => simp at h
  next tail =>
    split at h
    next => simp at h
    next =>
      obtain rfl := by simpa using h
      simp at htrim ⊢
      omega
  next tail =>
    split at h
    next => simp at h
    next =>
      obtain rfl := by simpa using h
      simp at htrim ⊢
      omega
  next =>
    split at h
    next => simp at h
    next call tail hcall =>
      obtain rfl := by simpa using h
      have := takeCall?_shorter hcall
      simp
      omega

/-- Reads to the end of the text. -/
def run (c : Cursor) : Except Fault Selection :=
  match h : c.step with
  | .error fault => .error fault
  | .ok none => c.finish
  | .ok (some next) =>
      have := step_shorter h
      run next
termination_by c.rest.length

end Cursor

def compileText (text : List Char) : Except Fault Selection := (Cursor.start text).run

def Fault.failure (fault : Fault) : Failure :=
  .parse fault.reason.message (String.ofList fault.rest)

end FieldQuery.Schema

namespace FieldQuery

/-- The selection that a schema text stands for. -/
def compile (schema : String) : Except Failure Selection :=
  (Schema.compileText schema.toList).mapError Schema.Fault.failure

end FieldQuery
