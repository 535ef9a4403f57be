import FieldQuery.Service.Basic

/-!
Clients send the fingerprint of a schema alone. When the server does not know
it, they send the request again with the schema attached.
-/

namespace FieldQuery

variable {Obj σ : Type}

/-- Carries a request to a server and brings back its response. -/
abbrev Transport (σ : Type) := Request → Run σ Response

/-- `onUnauthorized` hears of calls that the server refused. -/
structure Client (σ : Type) where
  transport : Transport σ
  onUnauthorized : Option (Failure → StateM σ Unit)

namespace Client

/-- Whether the failure of a first attempt calls for a second one. -/
def wantsSchema : Except Failure (Fields Json) → Bool
  | .error e => e.kind == .cacheMiss
  | .ok _ => false

/-- Result of the one or two attempts of a call. -/
def attempt (client : Client σ) (schema : String) (params : Fields Json) :
    Run σ (Except Failure (Fields Json)) := do
  let request := { Request.ofSchema schema with params }
  let first := (← client.transport request).result
  if wantsSchema first then
    return (← client.transport (request.withSchema schema)).result
  else return first

/-- Tells the listener about a refusal. -/
def report (client : Client σ) (result : Except Failure (Fields Json)) : StateM σ Unit :=
  match result, client.onUnauthorized with
  | .error e, some listener => if e.kind == .unauthorized then listener e else pure ()
  | _, _ => pure ()

/-- Calls the server with a schema. Failures of the transport itself end the
call at once. -/
def call (client : Client σ) (schema : String) (params : Fields Json) :
    Run σ (Fields Json) := do
  let result ← client.attempt schema params
  client.report result
  Run.ofExcept result

end Client

/-- Hands requests straight to a service, each in a context of its own. -/
def Service.transport (service : Service Obj σ)
    (context : Service Obj σ → Context Obj σ) : Transport σ :=
  fun request => ExceptT.mk do return .ok (← service.respond request (context service))

end FieldQuery
