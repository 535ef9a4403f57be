import FieldQuery.Api
import FieldQuery.Config.Basic
import FieldQuery.Json.Text

/-!
Models: records of one type behind a repository, exposed as five operations
that list, show, create, update and destroy them. Each asks the authorizer
before it answers or changes anything.
-/

namespace FieldQuery

variable {Obj σ : Type}

/-- Storage of the records of a model. `list` takes a window, an offset and a
limit, or gives all records. -/
structure Repository (Obj σ : Type) where
  count : Run σ Nat
  list : Option (Nat × Nat) → Hints → Run σ (List (Value Obj))
  find : Value Obj → Hints → Run σ (Option (Value Obj))
  create : MutationParams Obj → Run σ (Value Obj)
  update : Value Obj → MutationParams Obj → Run σ (Value Obj)
  destroy : Value Obj → Run σ (Value Obj)

structure Model (Obj σ : Type) where
  typeName : String
  singular : String
  plural : String
  pageSize : Nat
  repository : Repository Obj σ
  createHook : Option (ParamsHook Obj)
  updateHook : Option (ParamsHook Obj)

namespace Model

def ofRepository (typeName singular plural : String) (repository : Repository Obj σ) :
    Model Obj σ :=
  ⟨typeName, singular, plural, 10, repository, none, none⟩

/-- Takes over the parameter hooks of an entity. -/
def withHooksOf (m : Model Obj σ) (d : Descriptor Obj) : Model Obj σ :=
  { m with createHook := d.createHook, updateHook := d.updateHook }

/-- Sets the size of pages that a listing does not give; it is at least one. -/
def withPageSize (m : Model Obj σ) (size : Nat) : Model Obj σ := { m with pageSize := max size 1 }

def configured (m : Model Obj σ) (config : Config) : Model Obj σ :=
  m.withPageSize config.defaultPageSize

/-- An id as it appears in messages. -/
def idText (id : Value Obj) : String :=
  match id.asInt64?, id with
  | some n, _ => toString n.toInt
  | none, .string s => s
  | none, v => v.toJson.text

def findRecord (m : Model Obj σ) (id : Value Obj) (hints : Hints) : Run σ (Value Obj) := do
  match ← m.repository.find id hints with
  | some item => pure item
  | none => throw (.operation (m.typeName ++ " " ++ idText id ++ " not found"))

/-- An argument that counts something. -/
def countArg (what : String) (v : Value Obj) : Except Failure Nat :=
  match v.asInt64? with
  | some n =>
      if 0 ≤ n.toInt then .ok n.toInt.toNat
      else .error (.operation (what ++ " must be a non-negative integer"))
  | none => .error (.operation (what ++ " must be a non-negative integer"))

/-- Parameters of a mutation, which must be a map, after the hook. -/
def paramsArg (ctx : Context Obj σ) (hook : Option (ParamsHook Obj)) :
    Value Obj → Except Failure (MutationParams Obj)
  | .map fields => match hook with
    | some hook => hook fields
    | none => .ok fields
  | v => .error (.operation ("expected a map of params, got " ++ v.kind ctx.domain))

def authorize (inv : Invocation Obj σ) (action : Action) (subject : Subject Obj) : Run σ Unit :=
  Run.ofExcept (inv.ctx.authorize action subject)

/-- Window of a page. An offset that 64 bits cannot hold is out of range. -/
def window (page size : Nat) : Except Failure (Nat × Nat) :=
  if page * size < Word.unsignedEnd then .ok (page * size, size)
  else .error (.operation ("page " ++ toString page ++ " is out of range"))

/-- Lists all records, or one page of them together with their total. A page
is rendered as a map, so the hints for its records stand under `items`. -/
def listAll (m : Model Obj σ) : Operation Obj σ := fun inv => do
  authorize inv .read (.type m.typeName)
  match inv.arg 0 with
  | .null => return .list (← m.repository.list none inv.hints)
  | page => do
      let page ← Run.ofExcept (countArg "page" page)
      let size ← match inv.arg 1 with
        | .null => pure m.pageSize
        | size => Run.ofExcept (countArg "page_size" size)
      let range ← Run.ofExcept (window page size)
      let items ← m.repository.list (some range) ((inv.hints.get? "items").getD [])
      let total ← m.repository.count
      return .map [("total", .ofNat total), ("items", .list items)]

def showOne (m : Model Obj σ) : Operation Obj σ := fun inv => do
  let item ← m.findRecord (inv.arg 0) inv.hints
  authorize inv .read (.ofRecord m.typeName item)
  return item

def createOne (m : Model Obj σ) : Operation Obj σ := fun inv => do
  authorize inv .create (.type m.typeName)
  m.repository.create (← Run.ofExcept (paramsArg inv.ctx m.createHook (inv.arg 0)))

def updateOne (m : Model Obj σ) : Operation Obj σ := fun inv => do
  let item ← m.findRecord (inv.arg 0) []
  authorize inv .update (.ofRecord m.typeName item)
  m.repository.update (inv.arg 0) (← Run.ofExcept (paramsArg inv.ctx m.updateHook (inv.arg 1)))

def destroyOne (m : Model Obj σ) : Operation Obj σ := fun inv => do
  let item ← m.findRecord (inv.arg 0) []
  authorize inv .destroy (.ofRecord m.typeName item)
  m.repository.destroy (inv.arg 0)

end Model

/-- Binds the operations of a model. -/
def Api.withModel (api : Api Obj σ) (m : Model Obj σ) : Api Obj σ :=
  ((((api.withOperation m.plural m.listAll).withOperation m.singular m.showOne).withOperation
    (m.singular ++ ".create") m.createOne).withOperation
    (m.singular ++ ".update") m.updateOne).withOperation (m.singular ++ ".destroy") m.destroyOne

end FieldQuery
