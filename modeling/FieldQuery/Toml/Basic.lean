import FieldQuery.Fields
import FieldQuery.Number.Double

/-!
TOML documents and how statements build them up. A table may be named by
several statements, and its origin decides what a later one may still add.
-/

namespace FieldQuery

inductive TableOrigin where
  /-- Opened by a header. -/
  | header
  /-- Met on the way to the table of a header. -/
  | implied
  /-- Met on the way to the last part of a dotted key. -/
  | dotted
  /-- Written in braces, and complete. -/
  | inlined
deriving DecidableEq

inductive Toml where
  | bool (b : Bool)
  | int (n : Int64)
  | float (x : Double)
  /-- A date, a time or both, as written. -/
  | moment (text : String)
  | string (s : String)
  | array (items : List Toml)
  | table (origin : TableOrigin) (members : List (String × Toml))
  /-- Tables opened one after another by headers in double brackets. -/
  | tables (earlier : List (List (String × Toml))) (last : List (String × Toml))

/-- A key of several parts: tables on the way, and the name in the last one. -/
structure DottedKey where
  parents : List String
  name : String
deriving DecidableEq

namespace Toml

/-- Stores a value under a dotted key. Tables on the way are opened as needed;
only dotted ones may be reopened, and an implied one only to reach a dotted
one in it. A name is never stored twice. -/
def assign? (mayStore : Bool) (members : Fields Toml) (parents : List String) (name : String)
    (v : Toml) : Option (Fields Toml) :=
  match parents with
  | [] => if mayStore && !Fields.has members name then some (Fields.put members name v) else none
  | parent :: parents =>
      match Fields.get? members parent with
      | none =>
          (assign? true [] parents name v).map fun inner =>
            Fields.put members parent (.table .dotted inner)
      | some (.table .dotted inner) =>
          (assign? true inner parents name v).map fun inner =>
            Fields.put members parent (.table .dotted inner)
      | some (.table .implied inner) =>
          (assign? false inner parents name v).map fun inner =>
            Fields.put members parent (.table .implied inner)
      | some (.tables earlier last) =>
          (assign? false last parents name v).map fun last =>
            Fields.put members parent (.tables earlier last)
      | some _ => none

/-- Stores a value in the table that takes entries. -/
def store? (members : Fields Toml) (key : DottedKey) (v : Toml) : Option (Fields Toml) :=
  assign? true members key.parents key.name v

/-- Changes the table that a path of headers leads to. Tables on the way are
implied if they are new; of repeated tables the last one is meant. -/
def editTable? (members : Fields Toml) (path : List String)
    (edit : Fields Toml → Option (Fields Toml)) : Option (Fields Toml) :=
  match path with
  | [] => edit members
  | key :: path =>
      match Fields.get? members key with
      | none =>
          (editTable? [] path edit).map fun inner =>
            Fields.put members key (.table .implied inner)
      | some (.table .inlined _) => none
      | some (.table origin inner) =>
          (editTable? inner path edit).map fun inner =>
            Fields.put members key (.table origin inner)
      | some (.tables earlier last) =>
          (editTable? last path edit).map fun last =>
            Fields.put members key (.tables earlier last)
      | some _ => none

/-- Opens a table, which must be new or implied. -/
def openTable? (members : Fields Toml) (name : String) : Option (Fields Toml) :=
  match Fields.get? members name with
  | none => some (Fields.put members name (.table .header []))
  | some (.table .implied inner) => some (Fields.put members name (.table .header inner))
  | some _ => none

/-- Opens one more of repeated tables. -/
def repeatTable? (members : Fields Toml) (name : String) : Option (Fields Toml) :=
  match Fields.get? members name with
  | none => some (Fields.put members name (.tables [] []))
  | some (.tables earlier last) =>
      some (Fields.put members name (.tables (earlier ++ [last]) []))
  | some _ => none

/-- The table in braces that holds some entries. -/
def inlineTable? (entries : List (DottedKey × Toml)) : Option Toml :=
  (entries.foldlM (fun members entry => store? members entry.1 entry.2) []).map (.table .inlined)

inductive Statement where
  | entry (key : DottedKey) (v : Toml)
  | header (key : DottedKey)
  | repeatedHeader (key : DottedKey)

/-- A document in the making, with the path of the table that takes entries. -/
structure Draft where
  root : Fields Toml
  current : List String

namespace Draft

def empty : Draft := ⟨[], []⟩

def perform? (d : Draft) : Statement → Option Draft
  | .entry key v =>
      (editTable? d.root d.current (store? · key v)).map fun root => { d with root }
  | .header key =>
      (editTable? d.root key.parents (openTable? · key.name)).map fun root =>
        ⟨root, key.parents ++ [key.name]⟩
  | .repeatedHeader key =>
      (editTable? d.root key.parents (repeatTable? · key.name)).map fun root =>
        ⟨root, key.parents ++ [key.name]⟩

end Draft

/-- The document that statements make in order. -/
def ofStatements? (statements : List Statement) : Option (Fields Toml) :=
  (statements.foldlM Draft.perform? .empty).map Draft.root

end Toml

end FieldQuery
