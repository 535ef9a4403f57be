import FieldQuery.Host.Table
import FieldQuery.Proofs.Api.Bindings
import FieldQuery.Proofs.Model.Mutation

/-!
Permissions. Of a request to an API made of models, all that reaches the
repositories are the calls of single invocations, and each change among them was
allowed by the authorizer. Whoever may change nothing leaves the repositories as
they were.
-/

namespace FieldQuery

variable {Obj σ : Type}

/-- APIs whose operations are those of exposed models, mounted or not. -/
inductive Api.OfModels (exposed : Model Obj σ → Prop) : Api Obj σ → Prop
  | empty : OfModels exposed .empty
  | withModel {api : Api Obj σ} {m : Model Obj σ} (h : OfModels exposed api) (hm : exposed m) :
      OfModels exposed (api.withModel m)
  | mount {api other : Api Obj σ} (h : OfModels exposed api) (hother : OfModels exposed other)
      (point : String) : OfModels exposed (api.mount point other)

namespace Api

variable {exposed : Model Obj σ → Prop} {api : Api Obj σ}

/-- Every operation of such an API is an operation of an exposed model. -/
theorem OfModels.all (h : api.OfModels exposed) :
    api.All fun operation => ∃ m endpoint, exposed m ∧ operation = m.operation endpoint := by
  induction h with
  | empty => exact fun _ hnone => absurd hnone List.not_mem_nil
  | mount _ _ point ih ihother => exact ih.mount ihother point
  | @withModel api m _ hm ih =>
      exact ((((ih.withOperation m.plural ⟨m, .listAll, hm, rfl⟩).withOperation m.singular
        ⟨m, .showOne, hm, rfl⟩).withOperation (m.singular ++ ".create")
        ⟨m, .createOne, hm, rfl⟩).withOperation (m.singular ++ ".update")
        ⟨m, .updateOne, hm, rfl⟩).withOperation (m.singular ++ ".destroy")
        ⟨m, .destroyOne, hm, rfl⟩

end Api

/-- An invocation of an operation of a model, with what it calls on the
repository. -/
structure Visit (Obj σ : Type) where
  model : Model Obj σ
  endpoint : Model.Endpoint
  invocation : Invocation Obj σ
  calls : List (RepositoryCall Obj)

/-- What a request to an API does to the host, from a first state on: it visits
repositories through bound operations, and loads records ahead. -/
inductive Api.Trail (api : Api Obj σ) (exposed : Model Obj σ → Prop) (ctx : Context Obj σ) (s : σ) :
    List (Visit Obj σ) → σ → Prop
  | start : Trail api exposed ctx s [] s
  | visit {visits : List (Visit Obj σ)} {s' : σ} (h : Trail api exposed ctx s visits s')
      {m : Model Obj σ} {endpoint : Model.Endpoint} {inv : Invocation Obj σ}
      {calls : List (RepositoryCall Obj)} (hexposed : exposed m) (hctx : inv.ctx = ctx)
      (hbound : Fields.get? api.operations inv.name = some (m.operation endpoint))
      (hperforms : m.Performs inv s' endpoint calls) :
      Trail api exposed ctx s (visits ++ [⟨m, endpoint, inv, calls⟩])
        (m.repository.performAll s' calls)
  | reload {visits : List (Visit Obj σ)} {s' : σ} (h : Trail api exposed ctx s visits s')
      {access : DataAccess Obj σ} (haccess : ctx.dataAccess = some access) (typeName : String)
      (id : Value Obj) (hints : Hints) :
      Trail api exposed ctx s visits ((access typeName id hints).exec s').2

/-- A log of the calls on the repositories of exposed models, to which data
access appends nothing. -/
structure Context.Logged {κ : Type} (ctx : Context Obj σ) (exposed : Model Obj σ → Prop)
    (log : σ → List κ) (label : Model Obj σ → RepositoryCall Obj → κ) : Prop where
  perform : ∀ m, exposed m → ∀ call s,
    log (m.repository.perform s call) = log s ++ [label m call]
  dataAccess : ∀ access, ctx.dataAccess = some access → ∀ typeName id hints s,
    log ((access typeName id hints).exec s).2 = log s

/-- What neither reads of exposed models change nor data access does. -/
structure Context.Unread {β : Type} (ctx : Context Obj σ) (exposed : Model Obj σ → Prop)
    (view : σ → β) : Prop where
  perform : ∀ m, exposed m → m.repository.Unread view
  dataAccess : ∀ access, ctx.dataAccess = some access → ∀ typeName id hints s,
    view ((access typeName id hints).exec s).2 = view s

namespace Api

variable {exposed : Model Obj σ → Prop} {api : Api Obj σ} {ctx : Context Obj σ} {s s' : σ}
  {visits : List (Visit Obj σ)}

namespace Trail

/-- The log of a trail holds the calls of its visits and nothing else. -/
theorem log_eq {κ : Type} (h : api.Trail exposed ctx s visits s') {log : σ → List κ}
    {label : Model Obj σ → RepositoryCall Obj → κ} (hlog : ctx.Logged exposed log label) :
    log s' = log s ++ visits.flatMap fun visit => visit.calls.map (label visit.model) := by
  induction h with
  | start => exact (List.append_nil _).symm
  | reload _ haccess typeName id hints ih => rw [hlog.dataAccess _ haccess, ih]
  | @visit visits s' _ m _ inv calls hexposed _ _ _ ih =>
      have hcalls (calls : List (RepositoryCall Obj)) (s : σ) :
          log (m.repository.performAll s calls) = log s ++ calls.map (label m) := by
        induction calls generalizing s with
        | nil => exact (List.append_nil _).symm
        | cons call rest ihrest =>
            refine (ihrest _).trans ?_
            rw [hlog.perform m hexposed, List.append_assoc]
            rfl
      rw [hcalls, ih, List.flatMap_append, List.append_assoc]
      simp

end Trail

end Api

namespace Host.Table

/-- The trace that a call leaves. -/
def event : RepositoryCall Record → Event
  | .count => .count
  | .list range hints => .list range hints
  | .find id hints => .find id hints
  | .create params => .create params
  | .update id params => .update id params
  | .destroy id => .destroy id

end Host.Table

namespace Notebook

def model : Model Host.Record Host.World :=
  .ofRepository "Note" "note" "notes" (Host.Table.mk 0 none none []).repository

/-- The notes, behind a point of mount. -/
def api : Api Host.Record Host.World := Api.empty.mount "desk" (Api.empty.withModel model)

def world : Host.World := { Host.World.empty with tables := [[.map [("title", .string "first")]]] }

end Notebook

end FieldQuery
