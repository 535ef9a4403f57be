import FieldQuery.Api
import FieldQuery.Cache.Task
import FieldQuery.Service.Request

/-!
Services: a request is looked up in the query cache and then executed. A
request with a schema stores it; one without needs it stored before.
-/

namespace FieldQuery

variable {Obj σ : Type}

structure Service (Obj σ : Type) where
  domain : Domain Obj
  api : Api Obj σ
  entities : EntityRegistry Obj
  config : Config
  cache : CacheHost σ

namespace Service

/-- Context of a request to this service, before what the caller adds. -/
def context (service : Service Obj σ) : Context Obj σ :=
  { Context.ofDomain service.domain with
    entities := service.entities
    mode := service.config.mode }

/-- The selection of a request. A schema is stored under the fingerprint sent
with it, whether or not it is its own. -/
def lookup (service : Service Obj σ) (r : Request) : Run σ Selection :=
  match r.schema with
  | some schema => service.cache.store r.fingerprint schema
  | none => service.cache.resolve r.fingerprint

/-- Resolves a request. A look-up ends even after the deadline, as one does that
need not wait; the calls that follow then do not run. That a waiting look-up is
given up at the deadline, with a failure of its own, is left out. -/
def handle (service : Service Obj σ) (r : Request) (ctx : Context Obj σ) :
    Run σ (Fields Json) := do
  let selection ← service.lookup r
  service.api.execute (ctx.withParams (Value.ofMembers r.params)) selection

/-- Resolves a request, with failures as error responses. -/
def respond (service : Service Obj σ) (r : Request) (ctx : Context Obj σ) : StateM σ Response := do
  return .ofExcept (← (service.handle r ctx).run)

end Service

end FieldQuery
