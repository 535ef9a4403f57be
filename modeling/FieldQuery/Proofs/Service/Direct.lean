import FieldQuery.Host.Record
import FieldQuery.Proofs.Api.Effects
import FieldQuery.Proofs.Cache.Refinement
import FieldQuery.Proofs.Service.Exchange

/-!
A service as its clients see it. Whether a query is known, was forgotten or has
never been sent, a call is answered as if its schema were compiled and executed
on the spot. All that the cache adds is a second post after a miss.
-/

namespace FieldQuery

variable {Obj σ : Type}

/-- What happens to a service from one call to the next. -/
inductive ServiceStep where
  | call (schema : String) (params : Fields Json)
  | clear

/-- The schemas that steps call. -/
def ServiceStep.called (steps : List ServiceStep) : List String :=
  steps.filterMap fun
    | .call schema _ => some schema
    | .clear => none

/-- Each of these schemas may have left its tree under its fingerprint, and the
text of its tree. -/
def CacheHost.Ledger.ofSchemas (schemas : List String) : CacheHost.Ledger where
  tree key t := ∃ schema ∈ schemas, fingerprint schema = key ∧
    ∃ u, compile schema = .ok u ∧ (t = u ∨ Selection.decode? u.encode = some t)
  text key text := ∃ schema ∈ schemas, fingerprint schema = key ∧
    ∃ u, compile schema = .ok u ∧ text = u.encode
  tree_of_text := by
    rintro key _ t ⟨schema, hschema, hkey, u, hu, rfl⟩ hdecode
    exact ⟨schema, hschema, hkey, u, hu, .inr hdecode⟩

/-- What a request asks of the cache. -/
def Request.cacheRequest (r : Request) : CacheRequest :=
  match r.schema with
  | some schema => .store r.fingerprint schema
  | none => .resolve r.fingerprint

namespace Service

variable {service : Service Obj σ} {context : Service Obj σ → Context Obj σ} {r : Request}
  {ctx : Context Obj σ} {s s' : σ} {t : Selection} {schema : String} {params : Fields Json}

/-- The state after a step. -/
def after (service : Service Obj σ) (context : Service Obj σ → Context Obj σ) (s : σ) :
    ServiceStep → σ
  | .call schema params => (((service.observer context).call schema params).exec (s, .empty)).2.1
  | .clear => service.cache.after s .clear

def afterAll (service : Service Obj σ) (context : Service Obj σ → Context Obj σ) (s : σ)
    (steps : List ServiceStep) : σ :=
  steps.foldl (service.after context) s

/-- Executes a tree with the parameters of a call. -/
def execute (service : Service Obj σ) (context : Service Obj σ → Context Obj σ)
    (params : Fields Json) (t : Selection) : Run σ (Fields Json) :=
  service.api.execute ((context service).withParams (Value.ofMembers params)) t

/-- The result of a schema that is compiled and executed without a cache. -/
def direct (service : Service Obj σ) (context : Service Obj σ → Context Obj σ) (schema : String)
    (params : Fields Json) (s : σ) : Except Failure (Fields Json) :=
  (compile schema).bind fun t => ((service.execute context params t).exec s).1

/-- Host code that a service may run has no effects. -/
def Pure (service : Service Obj σ) (context : Service Obj σ → Context Obj σ) : Prop :=
  ∀ params, service.api.Obeys Effectless ((context service).withParams params)

theorem exec_lookup_snd (service : Service Obj σ) (r : Request) (s : σ) :
    ((service.lookup r).exec s).2 = service.cache.after s r.cacheRequest := by
  unfold lookup Request.cacheRequest
  cases r.schema <;> rfl

section Pure

theorem Pure.exec_execute (h : service.Pure context) (params : Fields Json) (t : Selection)
    (s s' : σ) :
    (service.execute context params t).exec s =
      (((service.execute context params t).exec s').1, s) := by
  obtain ⟨result, hresult⟩ := (h (Value.ofMembers params)).execute compositional_effectless t
  simp only [Run.exec, execute, hresult]
  rfl

/-- A tree that was found gives the same answer in every state. -/
theorem Pure.exec_handle (h : service.Pure context)
    (hlookup : (service.lookup r).exec s = (.ok t, s')) (s₀ : σ) :
    (service.handle r (context service)).exec s =
      (((service.execute context r.params t).exec s₀).1, s') :=
  (exec_handle_found hlookup).trans (h.exec_execute r.params t s' s₀)

/-- Only the cache sees a request. -/
theorem Pure.exec_handle_snd (h : service.Pure context) (r : Request) (s : σ) :
    ((service.handle r (context service)).exec s).2 = service.cache.after s r.cacheRequest := by
  rw [← exec_lookup_snd]
  cases hlookup : (service.lookup r).exec s with
  | mk found s' =>
      cases found with
      | error e => rw [exec_handle_missed hlookup]
      | ok t => rw [h.exec_handle hlookup s]

/-- A call asks the cache for its schema, and may store it then. -/
theorem Pure.after_call (h : service.Pure context) (schema : String) (params : Fields Json)
    (s : σ) :
    let asked := service.cache.after s (.resolve (fingerprint schema))
    service.after context s (.call schema params) = asked ∨
      service.after context s (.call schema params) =
        service.cache.after asked (.store (fingerprint schema) schema) := by
  intro asked
  obtain ⟨first, s₁, hfirst⟩ : ∃ first s₁,
      (service.handle (.ofCall schema params) (context service)).exec s = (first, s₁) := ⟨_, _, rfl⟩
  obtain ⟨second, s₂, hsecond⟩ : ∃ second s₂,
      (service.handle ((Request.ofCall schema params).withSchema schema) (context service)).exec
        s₁ = (second, s₂) := ⟨_, _, rfl⟩
  have hasked := h.exec_handle_snd (.ofCall schema params) s
  have hstored := h.exec_handle_snd ((Request.ofCall schema params).withSchema schema) s₁
  rw [hfirst] at hasked
  rw [hsecond] at hstored
  change s₁ = asked at hasked
  change s₂ = service.cache.after s₁ (.store (fingerprint schema) schema) at hstored
  cases hwants : Client.wantsSchema first with
  | false =>
      left
      rw [after, exec_call_answered hfirst hwants, hasked]
  | true =>
      right
      rw [after, exec_call_primed hfirst hwants hsecond, hstored, hasked]

variable {valid : σ → Prop} {holds : σ → String → String → Prop} {config : CacheConfig}
  {schemas : List String}

theorem covered_ofSchemas (hschema : schema ∈ schemas) :
    (CacheRequest.store (fingerprint schema) schema).Covered (.ofSchemas schemas) := fun t ht =>
  ⟨⟨schema, hschema, rfl, t, ht, .inl rfl⟩, schema, hschema, rfl, t, ht, rfl⟩

/-- Steps leave nothing in the cache but what they called. -/
theorem Pure.sound_afterAll (h : service.Pure context)
    (hcache : service.cache.Honest valid holds)
    (hs : service.cache.Sound valid holds config (.ofSchemas schemas) s) (steps : List ServiceStep)
    (hcalled : ∀ schema ∈ ServiceStep.called steps, schema ∈ schemas) :
    service.cache.Sound valid holds config (.ofSchemas schemas)
      (service.afterAll context s steps) := by
  induction steps generalizing s with
  | nil => exact hs
  | cons step rest ih =>
      cases step with
      | clear =>
          have hcleared : service.cache.Sound valid holds config (.ofSchemas schemas)
              (service.cache.after s .clear) := hs.after hcache trivial
          exact ih hcleared hcalled
      | call schema params =>
          have hasked : service.cache.Sound valid holds config (.ofSchemas schemas)
              (service.cache.after s (.resolve (fingerprint schema))) := hs.after hcache trivial
          have hstored := hasked.after hcache (covered_ofSchemas (hcalled schema (.head _)))
          refine ih ?_ fun other hother => hcalled other (.tail _ hother)
          rcases h.after_call schema params s with hafter | hafter
          · rwa [hafter]
          · rwa [hafter]

/-- A tree that is found for a schema is its own, if no other schema has its
fingerprint and its text reads back as it is. -/
theorem eq_of_tree_ofSchemas (hdistinct : ∀ other ∈ schemas, fingerprint other = fingerprint schema →
      other = schema)
    (hintact : ∀ t u, compile schema = .ok t → Selection.decode? t.encode = some u → u = t)
    (ht : (CacheHost.Ledger.ofSchemas schemas).tree (fingerprint schema) t) :
    compile schema = .ok t := by
  obtain ⟨other, hother, hsame, u, hu, rfl | hdecode⟩ := ht
  · rwa [← hdistinct other hother hsame]
  · rw [hdistinct other hother hsame] at hu
    rwa [hintact u t hu hdecode]

/-- The first post of a call is answered directly, or not at all. -/
theorem Pure.exec_handle_ofCall (h : service.Pure context)
    (hcache : service.cache.Honest valid holds)
    (hs : service.cache.Sound valid holds config (.ofSchemas schemas) s)
    (hdistinct : ∀ other ∈ schemas, fingerprint other = fingerprint schema → other = schema)
    (hintact : ∀ t u, compile schema = .ok t → Selection.decode? t.encode = some u → u = t)
    (params : Fields Json) (s' : σ) :
    ((service.handle (.ofCall schema params) (context service)).exec s).1 =
        .error (.cacheMiss (fingerprint schema)) ∨
      (∃ t, compile schema = .ok t) ∧
        ((service.handle (.ofCall schema params) (context service)).exec s).1 =
          service.direct context schema params s' := by
  obtain ⟨found, s₁, hlookup⟩ : ∃ found s₁,
      (service.lookup (.ofCall schema params)).exec s = (found, s₁) := ⟨_, _, rfl⟩
  have hfound : ((service.cache.resolve (fingerprint schema)).exec s).1 = found :=
    congrArg Prod.fst hlookup
  rcases hs.resolve hcache (fingerprint schema) with hmiss | ⟨t, hok, ht⟩
  · obtain rfl := hfound.symm.trans hmiss
    exact .inl (congrArg Prod.fst (exec_handle_missed hlookup))
  · obtain rfl := hfound.symm.trans hok
    have hcompile := eq_of_tree_ofSchemas hdistinct hintact ht
    refine .inr ⟨⟨t, hcompile⟩, ?_⟩
    rw [h.exec_handle hlookup s', direct, hcompile]
    rfl

/-- The second post of a call is answered directly. -/
theorem Pure.exec_handle_withSchema (h : service.Pure context) (schema : String)
    (params : Fields Json) (s s' : σ) :
    ((service.handle ((Request.ofCall schema params).withSchema schema) (context service)).exec
      s).1 = service.direct context schema params s' := by
  obtain ⟨stored, s₁, hlookup⟩ : ∃ stored s₁,
      (service.lookup ((Request.ofCall schema params).withSchema schema)).exec s = (stored, s₁) :=
    ⟨_, _, rfl⟩
  have hstored : ((service.cache.store (fingerprint schema) schema).exec s).1 = stored :=
    congrArg Prod.fst hlookup
  unfold direct
  cases hcompile : compile schema with
  | error e =>
      rw [CacheHost.exec_store_error hcompile] at hstored
      obtain rfl := hstored
      rw [exec_handle_missed hlookup]
      rfl
  | ok t =>
      rw [CacheHost.exec_store_ok hcompile] at hstored
      obtain rfl := hstored
      rw [h.exec_handle hlookup s']
      rfl

end Pure

/-- A miss asks for the schema; a directly computed result does not, unless an
execution fails as a miss does. -/
theorem wantsSchema_direct
    (hmiss : ∀ t e, compile schema = .ok t → ((service.execute context params t).exec s).1 =
      .error e → e.kind ≠ .cacheMiss) :
    Client.wantsSchema (service.direct context schema params s) = false := by
  unfold direct
  cases hcompile : compile schema with
  | error e =>
      obtain ⟨message, rest, rfl⟩ := exists_parse_of_compile hcompile
      rfl
  | ok t =>
      change Client.wantsSchema ((service.execute context params t).exec s).1 = false
      cases hresult : ((service.execute context params t).exec s).1 with
      | ok members => rfl
      | error e => exact beq_eq_false_iff_ne.mpr (hmiss t e hcompile hresult)

/-- After any calls of other schemas and this one, and any wipes in between, a
call of a pure service gives what its schema gives without a cache: the answer,
or a report of the failure. The request goes out once, or a second time with the
schema after a miss, and the listener hears of the result if it is a refusal. -/
theorem call_eq_direct {valid : σ → Prop} {holds : σ → String → String → Prop}
    (hpure : service.Pure context) (hcache : service.cache.Honest valid holds) (hs : valid s)
    (hempty : (service.cache.read s).entries = [])
    (hnothing : ∀ key text, ¬ holds s ((service.cache.read s).config.keyPrefix ++ key) text)
    (before : List ServiceStep) (schema : String) (params : Fields Json)
    (hdistinct : ∀ other ∈ ServiceStep.called before, fingerprint other = fingerprint schema →
      other = schema)
    (hintact : ∀ t u, compile schema = .ok t → Selection.decode? t.encode = some u → u = t)
    (s' : σ)
    (hmiss : ∀ t e, compile schema = .ok t → ((service.execute context params t).exec s').1 =
      .error e → e.kind ≠ .cacheMiss) :
    let call := ((service.observer context).call schema params).exec
      (service.afterAll context s before, .empty)
    let direct := service.direct context schema params s'
    let request := Request.ofCall schema params
    call.1 = direct.mapError .reported ∧
      (call.2.2.posts = [(request, .ofExcept direct)] ∨
        call.2.2.posts = [(request, .ofFailure (.cacheMiss (fingerprint schema))),
          (request.withSchema schema, .ofExcept direct)]) ∧
      call.2.2.heard = Exchange.refusals call.1 := by
  intro call direct request
  have hfresh : service.cache.Sound valid holds (service.cache.read s).config
      (.ofSchemas (schema :: ServiceStep.called before)) s := .of_fresh hs hempty hnothing
  have hsound := hpure.sound_afterAll hcache hfresh before fun other hother => .tail _ hother
  obtain ⟨first, s₁, hfirst⟩ : ∃ first s₁, (service.handle request (context service)).exec
      (service.afterAll context s before) = (first, s₁) := ⟨_, _, rfl⟩
  have hanswer := hpure.exec_handle_ofCall hcache hsound
    (List.forall_mem_cons.mpr ⟨fun _ => rfl, hdistinct⟩) hintact params s'
  rw [hfirst] at hanswer
  rcases hanswer with rfl | ⟨-, rfl⟩
  · obtain ⟨second, s₂, hsecond⟩ : ∃ second s₂,
        (service.handle (request.withSchema schema) (context service)).exec s₁ = (second, s₂) :=
      ⟨_, _, rfl⟩
    obtain rfl : second = direct :=
      (congrArg Prod.fst hsecond).symm.trans (hpure.exec_handle_withSchema schema params s₁ s')
    have hcall : call = _ := exec_call_primed hfirst rfl hsecond
    rw [hcall]
    exact ⟨rfl, .inr rfl, rfl⟩
  · have hcall : call = _ := exec_call_answered hfirst (wantsSchema_direct hmiss)
    rw [hcall]
    exact ⟨rfl, .inl rfl, rfl⟩

end Service

namespace Bell

/-- A bell that may be rung, but not heard. -/
def service : Service Host.Record MemoryHost where
  domain := Host.Record.domain
  api := ⟨[("ping", fun _ => pure .null), ("pong", fun _ => throw (.unauthorized .read "Bell"))]⟩
  entities := []
  config := .default
  cache := MemoryHost.host

theorem pure_service : service.Pure Service.context := fun params =>
  { operation := by
      intro name operation hname inv _ _
      rcases Fields.mem_of_get? hname with _ | ⟨_, _ | ⟨_, hmem⟩⟩
      · exact ⟨_, rfl⟩
      · exact ⟨_, rfl⟩
      · cases hmem
    dataAccess := by
      intro access haccess
      cases haccess }

/-- A refusal is reported and heard of once, after the query has come back from
the durable tier. -/
theorem pong_refused :
    let call := ((service.observer Service.context).call "pong" []).exec
      (service.afterAll Service.context (.fresh []) [.call "pong" [], .clear, .call "ping" []],
        .empty)
    call.1 = .error (.remote .unauthorized "Not authorized to read Bell") ∧
      call.2.2.heard = [.remote .unauthorized "Not authorized to read Bell"] := by
  intro call
  have hdirect : service.direct Service.context "pong" [] (.fresh []) =
      .error (.unauthorized .read "Bell") := by
    rw [Service.direct, compile_pong]
    rfl
  have hdistinct : ∀ other ∈ ServiceStep.called [.call "pong" [], .clear, .call "ping" []],
      fingerprint other = fingerprint "pong" → other = "pong" := by decide +kernel
  have hintact : ∀ t u, compile "pong" = .ok t → Selection.decode? t.encode = some u → u = t := by
    rintro t u hcompile hdecode
    obtain rfl := Except.ok.inj (compile_pong.symm.trans hcompile)
    rw [decode_pong] at hdecode
    exact (Option.some.inj hdecode).symm
  have hmiss : ∀ t e, compile "pong" = .ok t →
      ((service.execute Service.context [] t).exec (.fresh [])).1 = .error e →
        e.kind ≠ .cacheMiss := by
    rintro t e hcompile hexecute
    obtain rfl := Except.ok.inj (compile_pong.symm.trans hcompile)
    obtain rfl : Failure.unauthorized .read "Bell" = e := Except.error.inj hexecute
    decide
  obtain ⟨hresult, -, hheard⟩ := Service.call_eq_direct pure_service
    MemoryHost.fallible.toHonest (MemoryHost.lasting_fresh []) rfl
    (fun _ _ => MemoryHost.contents_fresh_ne _ _ _) _ _ [] hdistinct
    hintact (.fresh []) hmiss
  rw [hdirect] at hresult
  change call.1 = _ at hresult
  change call.2.2.heard = Exchange.refusals call.1 at hheard
  rw [hresult] at hheard
  exact ⟨hresult, hheard⟩

end Bell

end FieldQuery
