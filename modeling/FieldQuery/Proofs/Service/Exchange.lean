import FieldQuery.Proofs.Api.Effects
import FieldQuery.Proofs.Cache.Sequential
import FieldQuery.Service.Client

/-!
Exchanges between a client and a service. Everything that a call posts, and
every refusal that its listener hears of, is written down beside the state of
the service. A call posts its request once, and once more with the schema if
the service reports a missing fingerprint.
-/

namespace FieldQuery

variable {Obj σ : Type}

/-- A failure as it reaches the other side of the wire: its kind and its text. -/
def Failure.reported (e : Failure) : Failure := .remote e.kind e.message

/-- An answer crosses the wire as it is, and a failure as a report of it. -/
theorem Response.result_ofExcept (x : Except Failure (Fields Json)) :
    (Response.ofExcept x).result = x.mapError Failure.reported := by
  cases x with
  | ok members => rfl
  | error e =>
      have hstatus : (Response.ofFailure e).isSuccess = false := by
        change (200 ≤ e.kind.status && e.kind.status < 300) = false
        cases e.kind <;> rfl
      have hkind : (Response.ofFailure e).reportedKind = e.kind := FailureKind.ofCode_code e.kind
      simp only [ofExcept, result, hstatus, hkind]
      rfl

/-- Requests with their responses, and refusals heard of, in order. -/
structure Exchange where
  posts : List (Request × Response)
  heard : List Failure

namespace Exchange

def empty : Exchange := ⟨[], []⟩

def post (x : Exchange) (r : Request) (response : Response) : Exchange :=
  { x with posts := x.posts ++ [(r, response)] }

def hear (x : Exchange) (e : Failure) : Exchange := { x with heard := x.heard ++ [e] }

/-- What a listener has to hear about the result of a call. -/
def refusals : Except Failure (Fields Json) → List Failure
  | .error e => if e.kind == .unauthorized then [e] else []
  | .ok _ => []

/-- The exchange after the result of a call. -/
def settled (x : Exchange) (result : Except Failure (Fields Json)) : Exchange :=
  { x with heard := x.heard ++ refusals result }

end Exchange

/-- The request that a call posts first. -/
def Request.ofCall (schema : String) (params : Fields Json) : Request :=
  { Request.ofSchema schema with params }

/-- A transport that writes down what it carries. -/
def Transport.recorded (transport : Transport σ) : Transport (σ × Exchange) := fun r =>
  ExceptT.mk fun (s, x) =>
    match (transport r).exec s with
    | (.ok response, s) => (.ok response, (s, x.post r response))
    | (.error e, s) => (.error e, (s, x))

namespace Service

variable {service : Service Obj σ} {context : Service Obj σ → Context Obj σ} {r : Request}
  {ctx : Context Obj σ} {s s' : σ} {t : Selection} {schema : String} {params : Fields Json}

/-- A client of a service, every word of which is written down. -/
def observer (service : Service Obj σ) (context : Service Obj σ → Context Obj σ) :
    Client (σ × Exchange) where
  transport := (service.transport context).recorded
  onUnauthorized := some fun e (s, x) => ((), (s, x.hear e))

theorem exec_handle_found (hlookup : (service.lookup r).exec s = (.ok t, s')) :
    (service.handle r ctx).exec s =
      (service.api.execute (ctx.withParams (Value.ofMembers r.params)) t).exec s' :=
  Run.exec_bind_ok hlookup

/-- A request whose selection is not found executes nothing. -/
theorem exec_handle_missed {e : Failure} (hlookup : (service.lookup r).exec s = (.error e, s')) :
    (service.handle r ctx).exec s = (.error e, s') :=
  Run.exec_bind_error hlookup

theorem exec_post (service : Service Obj σ) (context : Service Obj σ → Context Obj σ) (r : Request)
    (s : σ) (x : Exchange) :
    ((service.observer context).transport r).exec (s, x) =
      (.ok (.ofExcept ((service.handle r (context service)).exec s).1),
        (((service.handle r (context service)).exec s).2,
          x.post r (.ofExcept ((service.handle r (context service)).exec s).1))) :=
  rfl

theorem run_report (service : Service Obj σ) (context : Service Obj σ → Context Obj σ)
    (result : Except Failure (Fields Json)) (s : σ) (x : Exchange) :
    ((service.observer context).report result).run (s, x) = ((), (s, x.settled result)) := by
  cases result with
  | ok members =>
      simp only [Exchange.settled, Exchange.refusals, List.append_nil]
      rfl
  | error e =>
      simp only [Client.report, observer, Exchange.settled, Exchange.refusals]
      split
      · rfl
      · rw [List.append_nil]
        rfl

/-- A call ends with the result of its attempts, after the listener heard of a
refusal. -/
theorem exec_call_of_attempt {result : Except Failure (Fields Json)} {x x' : Exchange}
    (hattempt : ((service.observer context).attempt schema params).exec (s, x) =
      (.ok result, (s', x'))) :
    ((service.observer context).call schema params).exec (s, x) =
      (result, (s', x'.settled result)) := by
  rw [Client.call, Run.exec_bind_ok hattempt]
  have hreport : Run.exec (liftM ((service.observer context).report result)) (s', x') =
      (.ok (), (s', x'.settled result)) := by
    change (Except.ok (((service.observer context).report result).run (s', x')).1,
      (((service.observer context).report result).run (s', x')).2) = _
    rw [run_report]
  exact Run.exec_bind_ok hreport

theorem wantsSchema_reported (result : Except Failure (Fields Json)) :
    Client.wantsSchema (result.mapError Failure.reported) = Client.wantsSchema result := by
  cases result <;> rfl

variable {first second : Except Failure (Fields Json)} {s'' : σ} {x : Exchange}

/-- One post is all if the service did not report a missing fingerprint. -/
theorem exec_call_answered
    (hfirst : (service.handle (.ofCall schema params) (context service)).exec s = (first, s'))
    (hwants : Client.wantsSchema first = false) :
    ((service.observer context).call schema params).exec (s, x) =
      (first.mapError .reported, (s', (x.post (.ofCall schema params) (.ofExcept first)).settled
        (first.mapError .reported))) := by
  apply exec_call_of_attempt
  have hpost := service.exec_post context (.ofCall schema params) s x
  rw [hfirst] at hpost
  refine (Run.exec_bind_ok hpost).trans ?_
  simp only [Response.result_ofExcept, wantsSchema_reported, hwants]
  rfl

/-- A reported miss is followed by a second post, with the schema attached. -/
theorem exec_call_primed
    (hfirst : (service.handle (.ofCall schema params) (context service)).exec s = (first, s'))
    (hwants : Client.wantsSchema first = true)
    (hsecond : (service.handle ((Request.ofCall schema params).withSchema schema)
      (context service)).exec s' = (second, s'')) :
    ((service.observer context).call schema params).exec (s, x) =
      (second.mapError .reported, (s'',
        ((x.post (.ofCall schema params) (.ofExcept first)).post
          ((Request.ofCall schema params).withSchema schema) (.ofExcept second)).settled
            (second.mapError .reported))) := by
  apply exec_call_of_attempt
  have hpost := service.exec_post context (.ofCall schema params) s x
  have hrepost := service.exec_post context ((Request.ofCall schema params).withSchema schema) s'
    (x.post (.ofCall schema params) (.ofExcept first))
  rw [hfirst] at hpost
  rw [hsecond] at hrepost
  refine (Run.exec_bind_ok hpost).trans ?_
  simp only [Response.result_ofExcept, wantsSchema_reported, hwants, if_true]
  rw [← Response.result_ofExcept]
  exact Run.exec_bind_ok hrepost

end Service

end FieldQuery
