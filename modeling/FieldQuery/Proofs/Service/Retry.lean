import FieldQuery.Proofs.Api.Log
import FieldQuery.Proofs.Service.Direct

/-!
Retries. A client posts a second time when a response reports a missing
fingerprint. If only the cache reports such, the first post has executed
nothing, and one call runs each operation of its query once at most. But a
report of an operation looks the same, and then the query runs twice.
-/

namespace FieldQuery

variable {Obj σ κ : Type}

/-- What a service does in one context: it asks its cache, and executes trees. -/
inductive Service.Runs (service : Service Obj σ) (ctx : Context Obj σ) :
    σ → List Selection → σ → Prop
  | done (s : σ) : Runs service ctx s [] s
  | ask {s s' : σ} {executed : List Selection} (request : CacheRequest)
      (h : Runs service ctx (service.cache.after s request) executed s') :
      Runs service ctx s executed s'
  | execute {s s' : σ} {executed : List Selection} (t : Selection)
      (h : Runs service ctx ((service.api.execute ctx t).exec s).2 executed s') :
      Runs service ctx s (t :: executed) s'

/-- A log of invocations, to which the cache appends nothing. -/
structure Service.Logged (service : Service Obj σ) (ctx : Context Obj σ) (log : σ → List κ)
    (label : Invocation Obj σ → κ) : Prop where
  api : service.api.Logged ctx log label
  cache : ∀ s request, log (service.cache.after s request) = log s

namespace Service

variable {service : Service Obj σ} {context : Service Obj σ → Context Obj σ} {r : Request}
  {ctx : Context Obj σ} {s s' s'' : σ} {executed more : List Selection} {schema : String}
  {params : Fields Json}

theorem Runs.trans (h : service.Runs ctx s executed s') (hmore : service.Runs ctx s' more s'') :
    service.Runs ctx s (executed ++ more) s'' := by
  induction h with
  | done => exact hmore
  | ask request _ ih => exact .ask request (ih hmore)
  | execute t _ ih => exact .execute t (ih hmore)

/-- Nothing gets into the log but invocations for the trees that are executed. -/
theorem Runs.log_eq (h : service.Runs ctx s executed s') {log : σ → List κ}
    {label : Invocation Obj σ → κ} (hlog : service.Logged ctx log label) :
    ∃ ran : List (Invocation Obj σ), ran.Sublist (executed.flatMap (service.api.invocations ctx)) ∧
      log s' = log s ++ ran.map label := by
  induction h with
  | done => exact ⟨[], .slnil, (List.append_nil _).symm⟩
  | ask request _ ih =>
      obtain ⟨ran, hran, hsame⟩ := ih
      exact ⟨ran, hran, by rw [hsame, hlog.cache]⟩
  | @execute s _ _ t _ ih =>
      obtain ⟨first, hfirst, hexecute⟩ := hlog.api.executeCalls t [] s
      obtain ⟨ran, hran, hsame⟩ := ih
      refine ⟨first ++ ran, hfirst.sublist.append hran, ?_⟩
      change log ((service.api.execute ctx t).exec s).2 = _ at hexecute
      rw [hsame, hexecute, List.map_append, List.append_assoc]

/-- Handling a request executes the tree that was looked up. -/
theorem runs_handle_found {t : Selection} (hlookup : (service.lookup r).exec s = (.ok t, s')) :
    service.Runs (ctx.withParams (Value.ofMembers r.params)) s [t]
      ((service.handle r ctx).exec s).2 := by
  have hasked := service.exec_lookup_snd r s
  rw [hlookup] at hasked
  rw [exec_handle_found hlookup]
  refine .ask r.cacheRequest (.execute t ?_)
  rw [← hasked]
  exact .done _

theorem runs_handle_missed {e : Failure}
    (hlookup : (service.lookup r).exec s = (.error e, s')) :
    service.Runs (ctx.withParams (Value.ofMembers r.params)) s []
      ((service.handle r ctx).exec s).2 := by
  have hasked := service.exec_lookup_snd r s
  rw [hlookup] at hasked
  rw [exec_handle_missed hlookup]
  refine .ask r.cacheRequest ?_
  rw [← hasked]
  exact .done _

/-- Handling a request executes one tree or none. -/
theorem exists_runs_handle (service : Service Obj σ) (r : Request) (ctx : Context Obj σ) (s : σ) :
    ∃ executed, executed.length ≤ 1 ∧
      service.Runs (ctx.withParams (Value.ofMembers r.params)) s executed
        ((service.handle r ctx).exec s).2 := by
  obtain ⟨found, s', hlookup⟩ : ∃ found s', (service.lookup r).exec s = (found, s') := ⟨_, _, rfl⟩
  cases found with
  | error e => exact ⟨[], Nat.zero_le 1, runs_handle_missed hlookup⟩
  | ok t => exact ⟨[t], Nat.le_refl 1, runs_handle_found hlookup⟩

/-- A call whose query is known executes the tree of the query. -/
theorem runs_call_found {t : Selection}
    (hlookup : (service.cache.resolve (fingerprint schema)).exec s = (.ok t, s'))
    (hmiss : ∀ e, ((service.execute context params t).exec s').1 = .error e →
      e.kind ≠ .cacheMiss) :
    let call := ((service.observer context).call schema params).exec (s, .empty)
    service.Runs ((context service).withParams (Value.ofMembers params)) s [t] call.2.1 ∧
      call.2.2.posts.length = 1 := by
  intro call
  obtain ⟨first, s₁, hfirst⟩ : ∃ first s₁,
      (service.handle (.ofCall schema params) (context service)).exec s = (first, s₁) := ⟨_, _, rfl⟩
  have hlooked : (service.lookup (.ofCall schema params)).exec s = (.ok t, s') := hlookup
  have hanswer : (service.handle (.ofCall schema params) (context service)).exec s =
      (service.execute context params t).exec s' := exec_handle_found hlooked
  have hruns : service.Runs ((context service).withParams (Value.ofMembers params)) s [t]
      ((service.handle (.ofCall schema params) (context service)).exec s).2 :=
    runs_handle_found hlooked
  rw [hfirst] at hruns hanswer
  have hwants : Client.wantsSchema first = false := by
    cases first with
    | ok members => rfl
    | error e => exact beq_eq_false_iff_ne.mpr (hmiss e (congrArg Prod.fst hanswer).symm)
  have hcall : call = _ := exec_call_answered hfirst hwants
  rw [hcall]
  exact ⟨hruns, rfl⟩

/-- A call whose query is not known executes nothing at its first post. -/
theorem runs_call_missed (context : Service Obj σ → Context Obj σ) (params : Fields Json)
    {e : Failure} (hlookup : (service.cache.resolve (fingerprint schema)).exec s = (.error e, s')) :
    let call := ((service.observer context).call schema params).exec (s, .empty)
    ∃ executed, executed.length ≤ 1 ∧
      service.Runs ((context service).withParams (Value.ofMembers params)) s executed call.2.1 ∧
      (call.2.2.posts.length = 1 ∨ call.2.2.posts.length = 2) := by
  intro call
  have hlooked : (service.lookup (.ofCall schema params)).exec s = (.error e, s') := hlookup
  have hfirst : (service.handle (.ofCall schema params) (context service)).exec s =
      (.error e, s') := exec_handle_missed hlooked
  have hruns : service.Runs ((context service).withParams (Value.ofMembers params)) s []
      ((service.handle (.ofCall schema params) (context service)).exec s).2 :=
    runs_handle_missed hlooked
  rw [hfirst] at hruns
  cases hwants : Client.wantsSchema (.error e) with
  | false =>
      have hcall : call = _ := exec_call_answered hfirst hwants
      rw [hcall]
      exact ⟨[], Nat.zero_le 1, hruns, .inl rfl⟩
  | true =>
      obtain ⟨second, s'', hsecond⟩ : ∃ second s'',
          (service.handle ((Request.ofCall schema params).withSchema schema)
            (context service)).exec s' = (second, s'') := ⟨_, _, rfl⟩
      obtain ⟨executed, hlength, hmore⟩ := service.exists_runs_handle
        ((Request.ofCall schema params).withSchema schema) (context service) s'
      rw [hsecond] at hmore
      have hcall : call = _ := exec_call_primed hfirst hwants hsecond
      rw [hcall]
      exact ⟨executed, hlength, hruns.trans hmore, .inr rfl⟩

/-- One call executes one tree at most, and so runs each operation once at most
for each call of the tree, if no execution of a known query fails as a missing
fingerprint does. It posts twice only if the look-up of the first post failed. -/
theorem call_executes_once (service : Service Obj σ) (context : Service Obj σ → Context Obj σ)
    (schema : String) (params : Fields Json) (s : σ)
    (hmiss : ∀ t s', (service.cache.resolve (fingerprint schema)).exec s = (.ok t, s') →
      ∀ e, ((service.execute context params t).exec s').1 = .error e → e.kind ≠ .cacheMiss) :
    let call := ((service.observer context).call schema params).exec (s, .empty)
    let ctx := (context service).withParams (Value.ofMembers params)
    ∃ executed, executed.length ≤ 1 ∧ service.Runs ctx s executed call.2.1 ∧
      (call.2.2.posts.length = 1 ∨ call.2.2.posts.length = 2 ∧
        ∃ e s', (service.cache.resolve (fingerprint schema)).exec s = (.error e, s') ∧
          (service.handle (.ofCall schema params) (context service)).exec s = (.error e, s')) ∧
      ∀ (κ : Type) (log : σ → List κ) (label : Invocation Obj σ → κ),
        service.Logged ctx log label →
          ∃ ran : List (Invocation Obj σ),
            ran.Sublist (executed.flatMap (service.api.invocations ctx)) ∧
              log call.2.1 = log s ++ ran.map label := by
  intro call ctx
  cases hlookup : (service.cache.resolve (fingerprint schema)).exec s with
  | mk found s' =>
      cases found with
      | ok t =>
          obtain ⟨hruns, hposts⟩ := runs_call_found hlookup (hmiss t s' hlookup)
          exact ⟨[t], Nat.le_refl 1, hruns, .inl hposts, fun _ _ _ hlog => hruns.log_eq hlog⟩
      | error e =>
          obtain ⟨executed, hlength, hruns, hposts⟩ := runs_call_missed context params hlookup
          refine ⟨executed, hlength, hruns, ?_, fun _ _ _ hlog => hruns.log_eq hlog⟩
          exact hposts.imp_right fun htwo => ⟨htwo, e, s', rfl, exec_handle_missed hlookup⟩

end Service

/-- A cache without a durable tier, beside the names of what was run. -/
abbrev Journal := Cache × List String

namespace Journal

def host : CacheHost Journal := ⟨Prod.fst, fun c s => (c, s.2), none⟩

def fresh : Journal := (.ofConfig ⟨1, 60, "query-"⟩, [])

/-- An operation that is written down, with a result given for it. -/
def operation (result : Except Failure (Value Host.Record)) : Operation Host.Record Journal :=
  fun inv => ExceptT.mk fun s => (result, (s.1, s.2 ++ [inv.name]))

/-- A service that sends something, and then asks a peer about it. -/
def service (answer : Except Failure (Value Host.Record)) : Service Host.Record Journal where
  domain := Host.Record.domain
  api := ⟨[("send", operation (.ok .null)), ("peer", operation answer)]⟩
  entities := []
  config := .default
  cache := host

theorem logged (answer : Except Failure (Value Host.Record)) (params : Fields (Value Host.Record)) :
    (service answer).Logged ((service answer).context.withParams params) Prod.snd
      Invocation.name where
  api :=
    { operation := by
        intro name operation hname inv _ _ s
        rcases Fields.mem_of_get? hname with _ | ⟨_, _ | ⟨_, hmem⟩⟩
        · rfl
        · rfl
        · cases hmem
      dataAccess := by
        intro access haccess
        cases haccess }
  cache := by
    intro s request
    refine CacheHost.after_induction (P := fun s' : Journal => s'.2 = s.2) ?_ rfl request
    rintro task s₁ task' s₂ hstep hsame
    cases hstep with
    | ask _ hdurable | find hdurable | lose hdurable | insert _ hdurable | write hdurable =>
        cases hdurable
    | hit | absent | unread | promote | refuse | keep | unwritten | wipe | stay => exact hsame

/-- A cache that knows one query. -/
def primed : Journal :=
  ((Cache.ofConfig ⟨1, 60, "query-"⟩).insert (fingerprint "send peer")
    [.ofName "send", .ofName "peer"], [])

def timeout : Failure := .remote .timeout "no answer"

/-- A peer that fails otherwise is asked once, and nothing is sent again. -/
theorem sent_once :
    let call := (((service (.error timeout)).observer Service.context).call "send peer" []).exec
      (primed, .empty)
    ∃ executed, executed.length ≤ 1 ∧
      (service (.error timeout)).Runs ((service (.error timeout)).context.withParams []) primed
        executed call.2.1 ∧
      ∃ ran : List (Invocation Host.Record Journal),
        ran.Sublist (executed.flatMap ((service (.error timeout)).api.invocations
          ((service (.error timeout)).context.withParams []))) ∧
          call.2.1.2 = [] ++ ran.map Invocation.name := by
  intro call
  have hlookup : ((service (.error timeout)).cache.resolve (fingerprint "send peer")).exec primed =
      (.ok [.ofName "send", .ofName "peer"], host.write (host.read primed).countHit primed) :=
    CacheHost.exec_resolve_hit (Cache.lookup?_insert_self _ _ _)
  obtain ⟨executed, hlength, hruns, -, hlog⟩ := (service (.error timeout)).call_executes_once
    Service.context "send peer" [] primed (by
      intro t s' hfound e hexecute
      rw [hlookup] at hfound
      cases hfound
      obtain rfl : timeout = e := Except.error.inj hexecute
      decide)
  exact ⟨executed, hlength, hruns, hlog String Prod.snd Invocation.name (logged _ _)⟩

/-- The text in which a service reports a fingerprint that it does not know. -/
def miss : Failure := .remote .cacheMiss (Failure.cacheMiss "7").message

/-- A service that knows its query and whose peer reports a missing fingerprint
sends twice in one call. -/
theorem sent_twice :
    let before := (service (.error miss)).after Service.context fresh (.call "send peer" [])
    let after := (service (.error miss)).after Service.context before (.call "send peer" [])
    before.2 = ["send", "peer"] ∧
      after.2 = ["send", "peer"] ++ ["send", "peer", "send", "peer"] := by
  decide +kernel

end Journal

end FieldQuery
