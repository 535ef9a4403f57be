import FieldQuery.Host.World
import FieldQuery.Model

/-!
Tables: repositories of records in memory.
-/

namespace FieldQuery.Host

/-- A table of the world. Records that it makes are maps, or objects of a
type; `count` is a fixed answer, and methods of some names fail. -/
structure Table where
  place : Nat
  object : Option String
  fixedCount : Option Nat
  failing : List String

namespace Table

/-- Id of a row, as an integer. -/
def rowId? : Value Record → Option Int64
  | .map fields => (Fields.get? fields "id").bind Value.asInt64?
  | .object r => r.id.bind Value.asInt64?
  | _ => none

def rowFields : Value Record → Fields (Value Record)
  | .map fields => fields
  | .object r => r.fields
  | _ => []

/-- A row of this table with the given fields. -/
def row (t : Table) (fields : Fields (Value Record)) : Value Record :=
  match t.object with
  | none => .map fields
  | some typeName => .object ⟨0, typeName, Fields.get? fields "id", none, fields, []⟩

/-- The greatest id of some rows; without ids it is zero. -/
def greatestId (rows : List (Value Record)) : Int64 :=
  match rows.filterMap rowId? with
  | [] => 0
  | first :: rest => rest.foldl max first

def rows (t : Table) : StateM World (List (Value Record)) := do
  return ((← get).tables[t.place]?).getD []

def setRows (t : Table) (rows : List (Value Record)) : StateM World Unit :=
  modify fun w => { w with tables := w.tables.set t.place rows }

/-- A method: it leaves a trace and then fails or runs. -/
def method {α : Type} (t : Table) (name : String) (event : Event)
    (body : StateM World (Except Failure α)) : Run World α := ExceptT.mk do
  World.record event
  if t.failing.contains name then return .error (.operation (name ++ " failed")) else body

/-- Place of the first row with an id. -/
def place? (rows : List (Value Record)) (id : Value Record) : Option Nat :=
  match id.asInt64? with
  | some n => rows.findIdx? fun r => rowId? r == some n
  | none => none

def list (t : Table) (range : Option (Nat × Nat)) (hints : Hints) :
    Run World (List (Value Record)) :=
  t.method "list" (.list range hints) do
    let rows ← t.rows
    match range with
    | none => return .ok rows
    | some (offset, limit) => return .ok ((rows.drop offset).take limit)

def count (t : Table) : Run World Nat :=
  t.method "count" .count do return .ok (t.fixedCount.getD (← t.rows).length)

def find (t : Table) (id : Value Record) (hints : Hints) : Run World (Option (Value Record)) :=
  t.method "find" (.find id hints) do
    let rows ← t.rows
    return .ok ((place? rows id).bind (rows[·]?))

def create (t : Table) (params : MutationParams Record) : Run World (Value Record) :=
  t.method "create" (.create params) do
    let rows ← t.rows
    let made := t.row (Fields.put params "id" (.int (greatestId rows + 1)))
    t.setRows (rows ++ [made])
    return .ok made

def update (t : Table) (id : Value Record) (params : MutationParams Record) :
    Run World (Value Record) :=
  t.method "update" (.update id params) do
    let rows ← t.rows
    match place? rows id with
    | none => return .error (.operation "gone")
    | some place =>
        let made := t.row (Fields.extend (rowFields ((rows[place]?).getD .null)) params)
        t.setRows (rows.set place made)
        return .ok made

def destroy (t : Table) (id : Value Record) : Run World (Value Record) :=
  t.method "destroy" (.destroy id) do
    let rows ← t.rows
    match place? rows id with
    | none => return .ok .null
    | some place =>
        t.setRows (rows.eraseIdx place)
        return .ok ((rows[place]?).getD .null)

def repository (t : Table) : Repository Record World :=
  { count := t.count
    list := t.list
    find := t.find
    create := t.create
    update := t.update
    destroy := t.destroy }

end Table

end FieldQuery.Host
