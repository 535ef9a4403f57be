import FieldQuery.Proofs.Cache.Memory
import FieldQuery.Proofs.Cache.Reliable

/-!
A cache against a plain map from fingerprints to trees. Over a reliable durable
tier the two answer alike. Without one the cache may forget, but never answers
with another tree, and keeps a tree as long as nothing else comes in.
-/

namespace FieldQuery

theorem exists_parse_of_compile {schema : String} {e : Failure}
    (hcompile : compile schema = .error e) : ∃ message rest, e = .parse message rest := by
  unfold compile at hcompile
  cases hfault : Schema.compileText schema.toList with
  | ok t =>
      rw [hfault] at hcompile
      cases hcompile
  | error fault =>
      rw [hfault] at hcompile
      exact ⟨_, _, (Except.error.inj hcompile).symm⟩

/-- A request after which the local tier still holds what it held under a
fingerprint, or something newer. -/
def CacheRequest.Spares (fingerprint : String) : CacheRequest → Prop
  | .store other _ => other = fingerprint
  | .resolve _ => True
  | .clear => False

namespace QueryMap

/-- What holds of all trees in a map and of those that requests store holds of
the trees in the map after the requests. -/
theorem afterAll_induction {P : String → Selection → Prop} {m : QueryMap}
    (requests : List CacheRequest)
    (hstored : ∀ fingerprint schema t, CacheRequest.store fingerprint schema ∈ requests →
      compile schema = .ok t → P fingerprint t)
    (hm : ∀ fingerprint t, m fingerprint = some t → P fingerprint t) :
    ∀ fingerprint t, m.afterAll requests fingerprint = some t → P fingerprint t := by
  induction requests generalizing m with
  | nil => exact hm
  | cons request rest ih =>
      refine ih (fun fingerprint schema t hmem => hstored fingerprint schema t (.tail _ hmem)) ?_
      intro fingerprint t ht
      cases request with
      | resolve | clear => exact hm fingerprint t ht
      | store other schema =>
          cases hcompile : compile schema with
          | error e =>
              rw [after_store_error hcompile] at ht
              exact hm fingerprint t ht
          | ok u =>
              rw [after_store_ok hcompile] at ht
              by_cases hother : fingerprint = other
              · subst hother
                rw [put_self] at ht
                exact Option.some.inj ht ▸ hstored fingerprint schema u (.head _) hcompile
              · rw [put_of_ne m u hother] at ht
                exact hm fingerprint t ht

theorem isSome_after {m : QueryMap} {fingerprint : String} (request : CacheRequest)
    (h : (m fingerprint).isSome = true) : (m.after request fingerprint).isSome = true := by
  cases request with
  | resolve | clear => exact h
  | store other schema =>
      cases hcompile : compile schema with
      | error e => rwa [after_store_error hcompile]
      | ok u =>
          rw [after_store_ok hcompile, put]
          split
          · rfl
          · exact h

end QueryMap

namespace CacheHost

variable {σ : Type} {host : CacheHost σ} {valid : σ → Prop} {s : σ} {m written : QueryMap}
  {fingerprint schema : String} {t : Selection}

section Reliable

variable {contents : σ → String → Option String} {config : CacheConfig}

/-- Everything stored is written. -/
theorem Reliable.writtenAfter_eq (h : host.Reliable valid contents) (hs : valid s)
    (m : QueryMap) (request : CacheRequest) : host.writtenAfter s m request = m.after request := by
  cases request with
  | resolve | clear => rfl
  | store fingerprint schema =>
      cases hcompile : compile schema with
      | error e => simp only [writtenAfter, QueryMap.after, hcompile]
      | ok t =>
          obtain ⟨s', hpersist, -⟩ :=
            h.exec_persist (h.valid_inserted hs fingerprint t) fingerprint t
          simp only [writtenAfter, QueryMap.after, hcompile, hpersist, if_true]

theorem Reliable.isSome_contents_after (h : host.Reliable valid contents) (hs : valid s)
    {key : String} (hkey : (contents s key).isSome = true) (request : CacheRequest) :
    (contents (host.after s request) key).isSome = true :=
  (after_induction (P := fun s => valid s ∧ (contents s key).isSome = true)
    (fun hstep hkept =>
      ⟨hstep.valid h.toLawful hkept.1, hstep.isSome_contents h hkept.1 hkept.2⟩)
    ⟨hs, hkey⟩ request).2

/-- A state in which both tiers tell what a map tells, as far as they tell
anything, and the durable one tells all of it. -/
structure Refines (host : CacheHost σ) (valid : σ → Prop)
    (contents : σ → String → Option String) (config : CacheConfig) (m : QueryMap) (s : σ) :
    Prop where
  sound : host.Sound valid (Holding contents) config (.ofMaps m m) s
  complete : ∀ fingerprint, (m fingerprint).isSome = true →
    (contents s (config.keyPrefix ++ fingerprint)).isSome = true

/-- One request keeps a reliable cache with the map. -/
theorem Refines.after (h : host.Reliable valid contents)
    (hs : host.Refines valid contents config m s) (request : CacheRequest) :
    host.Refines valid contents config (m.after request) (host.after s request) where
  sound := by
    have hsound := hs.sound.after_maps h.fallible request
    rwa [h.writtenAfter_eq hs.sound.valid] at hsound
  complete := by
    intro fingerprint hsome
    by_cases hold : (m fingerprint).isSome = true
    · exact h.isSome_contents_after hs.sound.valid (hs.complete fingerprint hold) request
    · cases request with
      | resolve | clear => exact absurd hsome hold
      | store other schema =>
          cases hcompile : compile schema with
          | error e =>
              rw [QueryMap.after_store_error hcompile] at hsome
              exact absurd hsome hold
          | ok t =>
              rw [QueryMap.after_store_ok hcompile] at hsome
              by_cases hother : fingerprint = other
              · subst hother
                obtain ⟨s', hpersist, hheld⟩ :=
                  h.exec_persist (h.valid_inserted hs.sound.valid fingerprint t) fingerprint t
                rw [hs.sound.durableKey_inserted h.toLawful] at hheld
                rw [after_store_ok hcompile, hpersist, hheld]
                rfl
              · rw [QueryMap.put_of_ne m t hother] at hsome
                exact absurd hsome hold

theorem Refines.afterAll (h : host.Reliable valid contents)
    (hs : host.Refines valid contents config m s) (requests : List CacheRequest) :
    host.Refines valid contents config (m.afterAll requests) (host.afterAll s requests) := by
  induction requests generalizing m s with
  | nil => exact hs
  | cons request rest ih => exact ih (hs.after h request)

/-- The cache answers as the map does, if the trees of the map read back as
they are. -/
theorem Refines.resolve (h : host.Reliable valid contents)
    (hs : host.Refines valid contents config m s)
    (hsurvives : ∀ t, m fingerprint = some t → Selection.decode? t.encode = some t) :
    ((host.resolve fingerprint).exec s).1 = m.answer fingerprint := by
  have htree {t : Selection} (ht : (Ledger.ofMaps m m).tree fingerprint t) :
      m fingerprint = some t := by
    rcases ht with ht | ⟨u, hu, hdecode⟩
    · exact ht
    · rw [hsurvives u hu] at hdecode
      rwa [← hdecode]
  cases hm : m fingerprint with
  | none =>
      rcases hs.sound.resolve h.honest fingerprint with hmiss | ⟨t, -, ht⟩
      · simpa [QueryMap.answer, hm] using hmiss
      · simp [htree ht] at hm
  | some t =>
      have hdecode : ∀ text, (Ledger.ofMaps m m).text fingerprint text →
          (Selection.decode? text).isSome = true := by
        rintro text ⟨u, hu, rfl⟩
        simp [hsurvives u hu]
      have hsupplied : host.Supplied valid contents config (.ofMaps m m) fingerprint s :=
        ⟨hs.sound, hs.complete fingerprint (by simp [hm]), hdecode⟩
      obtain ⟨u, hfound, hu⟩ := hsupplied.resolve h
      rw [hfound, QueryMap.answer, htree hu]

end Reliable

section Local

/-- Without a durable tier nothing gets written. -/
theorem writtenAll_of_none (hnone : host.durable = none) (s : σ) (written : QueryMap)
    (requests : List CacheRequest) : host.writtenAll s written requests = written := by
  induction requests generalizing s with
  | nil => rfl
  | cons request rest ih =>
      rw [writtenAll]
      have hafter : host.writtenAfter s written request = written := by
        cases request with
        | resolve | clear => rfl
        | store fingerprint schema =>
            simp only [writtenAfter, persist, hnone]
            split <;> rfl
      rw [hafter]
      exact ih _

/-- Without a durable tier, a request that spares a fingerprint changes what is
found under it as it changes the map. -/
theorem Lawful.lookup?_after (h : host.Lawful valid) (hs : valid s) (hnone : host.durable = none)
    {request : CacheRequest} (hspares : request.Spares fingerprint)
    (hm : (host.read s).lookup? fingerprint = m fingerprint) :
    (host.read (host.after s request)).lookup? fingerprint = m.after request fingerprint := by
  cases request with
  | clear => exact hspares.elim
  | resolve other =>
      obtain ⟨result, s', hexec, -, hkept, -⟩ := CacheTask.run_induction
        (P := fun task s' => valid s' ∧
          (host.read s').lookup? fingerprint = (host.read s).lookup? fingerprint ∧
          task.awaitsLock = false)
        (by
          rintro task s₁ task' s₂ hstep ⟨hs₁, hsame, htask⟩
          exact ⟨hstep.valid h hs₁, (hstep.lookup?_eq h hs₁ htask _).trans hsame,
            hstep.awaitsLock_of_none hnone htask⟩)
        (show _ ∧ _ ∧ (CacheTask.resolve other).awaitsLock = false from ⟨hs, rfl, rfl⟩)
      change (CacheTask.run host (CacheRequest.resolve other).task).exec s = _ at hexec
      rw [after_eq, hexec, hkept, hm]
      rfl
  | store other schema =>
      obtain rfl : other = fingerprint := hspares
      cases hcompile : compile schema with
      | error e =>
          rw [QueryMap.after_store_error hcompile, after_store_error hcompile]
          exact hm
      | ok t =>
          have hpersist : host.persist other t (host.inserted other t s) =
              (false, host.inserted other t s) := by
            simp only [persist, hnone]
          rw [QueryMap.after_store_ok hcompile, after_store_ok hcompile, hpersist,
            h.read_inserted hs, Cache.lookup?_insert_self, QueryMap.put_self]

theorem Lawful.valid_after (h : host.Lawful valid) (hs : valid s) (request : CacheRequest) :
    valid (host.after s request) :=
  after_induction (fun hstep hs => hstep.valid h hs) hs request

theorem Lawful.valid_afterAll (h : host.Lawful valid) (hs : valid s)
    (requests : List CacheRequest) : valid (host.afterAll s requests) := by
  induction requests generalizing s with
  | nil => exact hs
  | cons request rest ih => exact ih (h.valid_after hs request)

/-- A tree stored last stays in the local tier through requests that spare it. -/
theorem Lawful.lookup?_afterAll (h : host.Lawful valid) (hs : valid s) (hnone : host.durable = none)
    (requests : List CacheRequest) (hspares : ∀ r ∈ requests, r.Spares fingerprint)
    (hm : (host.read s).lookup? fingerprint = m fingerprint)
    (hsome : (m fingerprint).isSome = true) :
    ∃ t, (host.read (host.afterAll s requests)).lookup? fingerprint = some t := by
  induction requests generalizing s m with
  | nil => exact Option.isSome_iff_exists.mp (hm ▸ hsome)
  | cons request rest ih =>
      exact ih (h.valid_after hs request) (fun r hr => hspares r (.tail _ hr))
        (h.lookup?_after hs hnone (hspares request (.head _)) hm) (m.isSome_after request hsome)

end Local

end CacheHost

open CacheHost in
/-- A new cache answers as a plain map from fingerprints to trees does. A store
whose schema does not compile changes nothing. Over a reliable durable tier with
nothing in it the answers are those of the map, if the trees read back as they
are. Without a durable tier a tree may be missing, but not if only requests that
spare it have come since it was stored. -/
theorem cache_refines_map {σ : Type} {host : CacheHost σ} {valid : σ → Prop}
    (h : host.Lawful valid) {s : σ} (hs : valid s) (hempty : (host.read s).entries = [])
    (requests : List CacheRequest) (fingerprint : String) :
    (∀ schema e, compile schema = .error e →
      (∃ message rest, e = .parse message rest) ∧
        (host.store fingerprint schema).exec (host.afterAll s requests) =
          (.error e, host.afterAll s requests)) ∧
    (∀ contents, host.Reliable valid contents →
      (∀ other, contents s ((host.read s).config.keyPrefix ++ other) = none) →
      (∀ other schema t, .store other schema ∈ requests → compile schema = .ok t →
        Selection.decode? t.encode = some t) →
      ((host.resolve fingerprint).exec (host.afterAll s requests)).1 =
        (QueryMap.empty.afterAll requests).answer fingerprint) ∧
    (host.durable = none →
      (((host.resolve fingerprint).exec (host.afterAll s requests)).1 =
          .error (.cacheMiss fingerprint) ∨
        ∃ t, QueryMap.empty.afterAll requests fingerprint = some t ∧
          ((host.resolve fingerprint).exec (host.afterAll s requests)).1 = .ok t) ∧
      ∀ before schema since t, requests = before ++ .store fingerprint schema :: since →
        compile schema = .ok t → (∀ r ∈ since, r.Spares fingerprint) →
        ((host.resolve fingerprint).exec (host.afterAll s requests)).1 ≠
          .error (.cacheMiss fingerprint)) := by
  refine ⟨fun schema e hcompile => ⟨exists_parse_of_compile hcompile, exec_store_error hcompile _⟩,
    fun contents hreliable hnothing hsurvives => ?_, fun hnone => ⟨?_, ?_⟩⟩
  · have hstart : host.Refines valid contents (host.read s).config .empty s :=
      { sound := .of_fresh hs hempty fun other text => by simp [hnothing]
        complete := fun other hsome => by simp [QueryMap.empty] at hsome }
    refine (hstart.afterAll hreliable requests).resolve hreliable fun t ht => ?_
    exact QueryMap.afterAll_induction requests (P := fun _ t => Selection.decode? t.encode = some t)
      hsurvives (by simp [QueryMap.empty]) fingerprint t ht
  · have hstart : host.Sound valid (fun _ _ _ => False) (host.read s).config
        (.ofMaps .empty .empty) s := .of_fresh hs hempty fun _ _ => id
    have hafter := hstart.afterAll_maps (h.fallible hnone) requests
    rw [writtenAll_of_none hnone] at hafter
    rcases hafter.resolve (h.fallible hnone).toHonest fingerprint with hmiss | ⟨t, hfound, ht⟩
    · exact .inl hmiss
    · rcases ht with ht | ⟨u, hu, -⟩
      · exact .inr ⟨t, ht, hfound⟩
      · cases hu
  · rintro before schema since t rfl hcompile hspares
    -- The map in which the tree comes in is the local tier itself.
    let held : QueryMap := fun other => (host.read (host.afterAll s before)).lookup? other
    have hstored : (held.after (.store fingerprint schema) fingerprint).isSome = true := by
      rw [QueryMap.after_store_ok hcompile, QueryMap.put_self]
      rfl
    have hvalid := h.valid_afterAll hs before
    obtain ⟨u, hu⟩ := h.lookup?_afterAll (h.valid_after hvalid (.store fingerprint schema)) hnone
      since hspares (h.lookup?_after (m := held) hvalid hnone rfl rfl) hstored
    have hsplit : host.afterAll s (before ++ .store fingerprint schema :: since) =
        host.afterAll (host.after (host.afterAll s before) (.store fingerprint schema)) since := by
      simp only [afterAll, List.foldl_append, List.foldl_cons]
    rw [hsplit, exec_resolve_hit hu]
    simp

/-- Answers of a cache for one tree over a store in memory, and of one without
a store. -/
theorem memory_refines_map :
    ((MemoryHost.host.resolve "x").exec (MemoryHost.host.afterAll
      (.fresh []) [.store "x" "ping", .store "y" "pong", .clear])).1 =
        .ok [.ofName "ping"] ∧
    ((MemoryHost.localHost.resolve "x").exec (MemoryHost.localHost.afterAll
      (.fresh []) [.store "y" "pong", .store "x" "ping", .resolve "y"])).1 ≠
        .error (.cacheMiss "x") := by
  constructor
  · have h := (cache_refines_map MemoryHost.reliable.toLawful
      ⟨MemoryHost.lasting_fresh [], rfl⟩ rfl
      [.store "x" "ping", .store "y" "pong", .clear] "x").2.1 _ MemoryHost.reliable
      (fun _ => rfl) ?_
    · rw [h]
      simp [QueryMap.answer, QueryMap.afterAll, QueryMap.after, compile_ping, compile_pong,
        QueryMap.put]
    · intro other schema t hmem hcompile
      simp only [List.mem_cons, CacheRequest.store.injEq, reduceCtorEq, or_false,
        List.not_mem_nil] at hmem
      rcases hmem with ⟨-, rfl⟩ | ⟨-, rfl⟩
      · rw [compile_ping] at hcompile
        exact Except.ok.inj hcompile ▸ decode_ping
      · rw [compile_pong] at hcompile
        exact Except.ok.inj hcompile ▸ decode_pong
  · exact ((cache_refines_map MemoryHost.local_lawful
      (MemoryHost.lasting_fresh []) rfl
      [.store "y" "pong", .store "x" "ping", .resolve "y"] "x").2.2 rfl).2
      [.store "y" "pong"] "ping" [.resolve "y"] _ rfl compile_ping (by simp [CacheRequest.Spares])

end FieldQuery
