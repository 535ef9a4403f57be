import FieldQuery.Entity.Basic
import FieldQuery.Json.Merge
import FieldQuery.Value.Json

/-!
Rendering values against selections. Maps expose every key and objects only
what their descriptor whitelists; lists are rendered item by item, and scalars
take no selection.
-/

namespace FieldQuery

variable {Obj σ : Type}

/-- Follows path segments by plain member access, up to the first null. -/
def Value.follow (domain : Domain Obj) (args : List (Value Obj)) :
    List String → Value Obj → Value Obj
  | [], v => v
  | segment :: rest, v =>
      if v.isNull then v
      else follow domain args rest ((v.member? domain segment args).getD .null)

/-- The value with hinted relations loaded, if it is an object that can. -/
def Value.prefetched (domain : Domain Obj) (hints : Hints) (v : Value Obj) : Value Obj :=
  if hints.isEmpty then v
  else match v with
    | .object o => (domain.prefetch o hints).getD v
    | _ => v

/-- Where a selection finds its fields. -/
inductive Source (Obj : Type) where
  | map (fields : Fields (Value Obj))
  | entity (e : Entity Obj)

namespace Source

/-- Raw value behind a call. Only the first segment of a path is checked
against the whitelist of an entity. -/
def read (scope : Scope Obj) (c : Call) : Source Obj → Except Failure (Value Obj)
  | .map fields =>
      match c.path with
      | [] => .ok .null
      | head :: rest =>
          .ok (((Fields.get? fields head).getD .null).follow scope.domain [] rest)
  | .entity e =>
      let args := scope.resolveParams c.args
      match c.path with
      | [] => e.field "" args
      | head :: rest => (e.field head args).map (Value.follow scope.domain args rest)

end Source

namespace Value

mutual

/-- Renders a value whose fields are rendered by `fields`. -/
def renderWith (ctx : Context Obj σ) (fields : Source Obj → Except Failure Json) :
    Value Obj → Except Failure Json
  | .null => .ok .null
  | .map m => fields (.map m)
  | .list items => (renderItems ctx fields items).map .array
  | .object o => (Entity.open? ctx o).bind fun e => fields (.entity e)
  | v => .error (.render (v.kind ctx.domain ++ " value cannot take a selection"))

def renderItems (ctx : Context Obj σ) (fields : Source Obj → Except Failure Json) :
    List (Value Obj) → Except Failure (List Json)
  | [] => .ok []
  | v :: rest => do
      let item ← ctx.contain (renderWith ctx fields v)
      let items ← renderItems ctx fields rest
      return item :: items

end

end Value

namespace Source

mutual

/-- Renders the value of one call. -/
def renderCall (ctx : Context Obj σ) (source : Source Obj) : Call → Except Failure Json
  | ⟨name, label, params, none⟩ =>
      (source.read ctx.toScope ⟨name, label, params, none⟩).map Value.toLeaf
  | ⟨name, label, params, some nested⟩ => do
      let c : Call := ⟨name, label, params, some nested⟩
      let v ← source.read ctx.toScope c
      (v.prefetched ctx.domain c.hints).renderWith ctx fun inner =>
        (renderCalls ctx inner [] nested).map .object

/-- Renders calls in order on top of the members already there. -/
def renderCalls (ctx : Context Obj σ) (source : Source Obj) (members : Fields Json) :
    List Call → Except Failure (Fields Json)
  | [] => .ok members
  | c :: rest => do
      let v ← ctx.contain (renderCall ctx source c)
      renderCalls ctx source (mergeEntry .union members c.key v) rest

end

end Source

/-- Renders a value against a selection, or as a leaf. -/
def Value.render (ctx : Context Obj σ) (v : Value Obj) : Option Selection → Except Failure Json
  | none => .ok v.toLeaf
  | some selection =>
      v.renderWith ctx fun source => (source.renderCalls ctx [] selection).map .object

end FieldQuery
