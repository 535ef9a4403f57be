import FieldQuery.Render

/-!
The root of a selection: a table of named operations. Each top-level call runs
an operation and renders its result under the key of the call.
-/

namespace FieldQuery

variable {Obj σ : Type}

/-- What an operation sees when it runs. -/
structure Invocation (Obj σ : Type) where
  name : String
  args : List (Value Obj)
  hints : Hints
  ctx : Context Obj σ

/-- Positional argument; `null` when not supplied. -/
def Invocation.arg (inv : Invocation Obj σ) (place : Nat) : Value Obj :=
  inv.args[place]?.getD .null

abbrev Operation (Obj σ : Type) := Invocation Obj σ → Run σ (Value Obj)

/-- How a top-level call goes wrong. An operation that refuses its caller
outright ends the request in every mode. -/
inductive CallFailure where
  | refused (e : Failure)
  | failed (e : Failure)

def CallFailure.ofOperation : Failure → CallFailure
  | .unauthorized action subject => .refused (.unauthorized action subject)
  | e => .failed e

/-- Computations of one top-level call. -/
abbrev CallRun (σ : Type) := ExceptT CallFailure (StateM σ)

namespace CallRun

variable {α : Type}

def ofExcept (result : Except Failure α) : CallRun σ α :=
  ExceptT.mk (pure (result.mapError .failed))

/-- Runs a computation whose failures are those of an operation. -/
def ofOperation (action : Run σ α) : CallRun σ α :=
  ExceptT.mk do return (← action.run).mapError CallFailure.ofOperation

def ofRun (action : Run σ α) : CallRun σ α :=
  ExceptT.mk do return (← action.run).mapError .failed

end CallRun

structure Api (Obj σ : Type) where
  operations : Fields (Operation Obj σ)

namespace Api

def empty : Api Obj σ := ⟨[]⟩

/-- Binds an operation, in the place of an earlier one of that name. -/
def withOperation (api : Api Obj σ) (name : String) (operation : Operation Obj σ) : Api Obj σ :=
  ⟨Fields.put api.operations name operation⟩

def mountedName (point name : String) : String :=
  if point.isEmpty then name else point ++ "." ++ name

/-- Exposes the operations of another table, each name behind a point of mount
and a dot. -/
def mount (api : Api Obj σ) (point : String) (other : Api Obj σ) : Api Obj σ :=
  other.operations.foldl
    (fun api (name, operation) => api.withOperation (mountedName point name) operation) api

def hasOperation (api : Api Obj σ) (name : String) : Bool := Fields.has api.operations name

def operationNames (api : Api Obj σ) : List String := Fields.names api.operations

/-- The bound operation with the longest name that is a proper prefix of a
path, and the segments that remain. -/
def longestPrefix? (api : Api Obj σ) (path : List String) :
    Option (String × Operation Obj σ × List String) :=
  ((List.range path.length).drop 1).reverse.findSome? fun size =>
    let head := Text.join "." (path.take size)
    (Fields.get? api.operations head).map fun operation => (head, operation, path.drop size)

/-- One step along a dotted name: a key of a map, or an attribute of an
entity. -/
def memberOf (ctx : Context Obj σ) (segment : String) : Value Obj → Except Failure (Value Obj)
  | .map fields => .ok ((Fields.get? fields segment).getD .null)
  | .object o => (Entity.open? ctx o).bind fun e => e.field segment []
  | v => .error (.render (v.kind ctx.domain ++ " value has no member '" ++ segment ++ "'"))

/-- An attribute that a dotted name does not reach is an unknown operation. -/
def hideAttribute (name : String) : Failure → Failure
  | .unknownAttribute .. => .unknownOperation name
  | e => e

/-- Follows the segments of a dotted name, up to the first null. -/
def walk (ctx : Context Obj σ) (name : String) :
    List String → Value Obj → Except Failure (Value Obj)
  | [], v => .ok v
  | segment :: rest, v =>
      if v.isNull then .ok v
      else ((memberOf ctx segment v).mapError (hideAttribute name)).bind (walk ctx name rest)

/-- Runs the operation of a call. A dotted name that is not bound itself goes
to its longest bound prefix, which gets no hints, and then along the rest. -/
def invoke (api : Api Obj σ) (ctx : Context Obj σ) (c : Call) : CallRun σ (Value Obj) :=
  let args := ctx.resolveParams c.args
  match Fields.get? api.operations c.name with
  | some operation => .ofOperation (operation ⟨c.name, args, c.hints, ctx⟩)
  | none =>
      match api.longestPrefix? c.path with
      | some (head, operation, rest) => do
          let v ← CallRun.ofOperation (operation ⟨head, args, [], ctx⟩)
          .ofExcept (walk ctx c.name rest v)
      | none => .ofExcept (.error (.unknownOperation c.name))

/-- Hands hints to the data layer. An object reloads itself if it can; else a
record with an id is fetched again. -/
def eagerLoad (ctx : Context Obj σ) (hints : Hints) (v : Value Obj) : Run σ (Value Obj) :=
  match hints, v with
  | _ :: _, .object o =>
      match ctx.domain.prefetch o hints with
      | some loaded => pure loaded
      | none =>
          match ctx.domain.id o, ctx.dataAccess with
          | some id, some access => do
              return (← access (ctx.domain.typeName o) id hints).getD v
          | _, _ => pure v
  | _, _ => pure v

/-- Runs a top-level call and renders its result. -/
def resolve (api : Api Obj σ) (ctx : Context Obj σ) (c : Call) : CallRun σ Json := do
  let v ← api.invoke ctx c
  match c.nested with
  | none => return v.toLeaf
  | some selection =>
      let loaded ← CallRun.ofRun (eagerLoad ctx c.hints v)
      .ofExcept (loaded.render ctx (some selection))

/-- Result of a top-level call as a member of the answer. -/
def answer (api : Api Obj σ) (ctx : Context Obj σ) (c : Call) : Run σ Json :=
  ExceptT.mk do
    match ← (api.resolve ctx c).run with
    | .ok v => return .ok v
    | .error (.refused e) => return .error e
    | .error (.failed e) => return ctx.contain (.error e)

def executeCalls (api : Api Obj σ) (ctx : Context Obj σ) (members : Fields Json) :
    List Call → Run σ (Fields Json)
  | [] => pure members
  | c :: rest => do
      Run.ofExcept ctx.checkDeadline
      let v ← api.answer ctx c
      api.executeCalls ctx (mergeEntry .replaceArrays members c.key v) rest

/-- Executes the calls of a selection in order. -/
def execute (api : Api Obj σ) (ctx : Context Obj σ) (selection : Selection) :
    Run σ (Fields Json) :=
  api.executeCalls ctx [] selection

end Api

end FieldQuery
