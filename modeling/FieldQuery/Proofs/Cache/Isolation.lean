import FieldQuery.Proofs.Cache.Pools
import FieldQuery.Proofs.Cache.SharedMemory
import FieldQuery.Proofs.Fingerprint.Prefix

/-!
Caches kept apart by their prefixes. They are, unless one prefix extends another
by the beginning of a fingerprint: then the caches have keys in common, and a
look-up in one of them finds what was stored in the other.
-/

namespace FieldQuery

namespace CacheHost

variable {σ ι ε : Type}

open Fingerprint in
/-- If no other prefix is equal to the one of a cache, and neither extends the
other by the beginning of a fingerprint, a look-up in the cache answers what it
would answer if no other cache had been asked for anything. The same holds of
every job when requests are under way at the same time: the moves of the cache
alone may happen as well, and leave it with the same jobs. -/
theorem resolve_isolated [DecidableEq ι] {hosts : ι → CacheHost σ} {durable : DurableStore σ}
    {prefixes : ι → String} {entry : σ → String → ε} {valid : σ → Prop}
    (h : Sharing hosts durable prefixes entry valid) {i : ι}
    (hprefixes : ∀ j, i ≠ j → prefixes i ≠ prefixes j ∧
      ¬ Extends (prefixes i) (prefixes j) ∧ ¬ Extends (prefixes j) (prefixes i))
    {s : σ} (hs : valid s) :
    (∀ requests : List (ι × CacheRequest), (∀ sent ∈ requests, sent.2.IsDerived) → ∀ text,
      (((hosts i).resolve (fingerprint text)).exec (afterEach hosts s requests)).1 =
        (((hosts i).resolve (fingerprint text)).exec
          ((hosts i).afterAll s (sentTo i requests))).1) ∧
    ∀ (schedule : List (ι × Move)) (final : Pools σ ι), (∀ sent ∈ schedule, sent.2.IsDerived) →
      (Pools.idle s).run? hosts schedule = some final →
        ∃ t, (Pool.idle s).run? (hosts i) (sentTo i schedule) = some ⟨t, final.jobs i⟩ := by
  have hkeys (j : ι) (hij : i ≠ j) (a b : String) :
      prefixes i ++ fingerprint a ≠ prefixes j ++ fingerprint b := by
    obtain ⟨hne, hij, hji⟩ := hprefixes j hij
    intro hab
    exact ((exists_same_key_iff hne).mp ⟨a, b, hab⟩).elim hij hji
  constructor
  · intro requests hrequests text
    have halike := h.afterEach_alike hkeys hrequests (Alike.refl hs)
    have htask : (CacheTask.resolve (fingerprint text)).IsDerived := by
      rintro _ ⟨⟩
      exact ⟨text, rfl⟩
    rw [CacheHost.resolve, Run.exec_map, Run.exec_map, (h.run_alike halike htask).1]
  · intro schedule final hschedule hrun
    have hidle : ∀ j : ι, ∀ job ∈ (Pools.idle s).jobs j, job.task.IsDerived := by
      simp [Pools.idle]
    obtain ⟨t, ht, -⟩ := h.run_moves_alike hkeys hschedule hidle (Alike.refl hs) hrun
    exact ⟨t, ht⟩

end CacheHost

/-! Caches in memory. -/

namespace SharedMemory

open CacheHost Fingerprint

def ports : Bool → String
  | false => "user:"
  | true => "admin:"

theorem ports_apart : ports true ≠ ports false ∧ ¬ Extends (ports true) (ports false) ∧
    ¬ Extends (ports false) (ports true) := by
  refine ⟨by decide, ?_, ?_⟩
  · rintro ⟨more, -, hmore⟩
    have hlists := congrArg String.toList hmore
    simp [ports] at hlists
  · rintro ⟨more, -, hmore⟩
    have hlists := congrArg String.toList hmore
    simp [ports] at hlists

/-- A store in one cache while the other one looks the same schema up. -/
def storeBesideLookUp : List (Bool × Move) :=
  [(false, .start (.store (fingerprint "ab") "ab")),
    (true, .start (.resolve (fingerprint "ab"))), (true, .advance 0), (false, .advance 0),
    (false, .advance 0), (true, .advance 0)]

theorem ab_isolated :
    (((host true).resolve (fingerprint "ab")).exec
      (afterEach host (fresh ports) [(false, .store (fingerprint "ab") "ab")])).1 =
        (((host true).resolve (fingerprint "ab")).exec (fresh ports)).1 ∧
    ∃ final t, (Pools.idle (fresh ports)).run? host storeBesideLookUp = some final ∧
      (Pool.idle (fresh ports)).run? (host true) [.start (.resolve (fingerprint "ab")),
        .advance 0, .advance 0] = some ⟨t, final.jobs true⟩ := by
  have hports (i : Bool) (hi : true ≠ i) : ports true ≠ ports i ∧
      ¬ Extends (ports true) (ports i) ∧ ¬ Extends (ports i) (ports true) := by
    cases i with
    | false => exact ports_apart
    | true => exact absurd rfl hi
  have hstored : ∀ sent ∈ [(false, CacheRequest.store (fingerprint "ab") "ab")],
      sent.2.IsDerived := by
    intro sent hsent
    obtain rfl := List.mem_singleton.mp hsent
    rintro _ ⟨⟩
    exact ⟨"ab", rfl⟩
  have hschedule : ∀ sent ∈ storeBesideLookUp, sent.2.IsDerived := by
    rintro sent hsent request hrequest found hfound
    refine ⟨"ab", ?_⟩
    simp only [storeBesideLookUp, List.mem_cons, List.not_mem_nil, or_false] at hsent
    rcases hsent with rfl | rfl | rfl | rfl | rfl | rfl
    · cases hrequest
      exact (Option.some.inj hfound).symm
    · cases hrequest
      exact (Option.some.inj hfound).symm
    all_goals cases hrequest
  obtain ⟨final, hrun⟩ : ∃ final,
      (Pools.idle (fresh ports)).run? host storeBesideLookUp = some final :=
    ⟨_, by with_unfolding_all rfl⟩
  obtain ⟨hanswer, hjobs⟩ := resolve_isolated (sharing ports) hports (valid_fresh ports)
  obtain ⟨t, ht⟩ := hjobs storeBesideLookUp final hschedule hrun
  exact ⟨hanswer _ hstored "ab", final, t, hrun, ht⟩

/-! Prefixes that do not keep caches apart. -/

section Leak

variable {ι : Type} [DecidableEq ι] {i j : ι} {prefixes : ι → String} {a b schema : String}
  {t : Selection}

theorem resolve_fresh (prefixes : ι → String) (i : ι) (b : String) :
    (((host i).resolve b).exec (fresh prefixes)).1 = .error (.cacheMiss b) :=
  rfl

theorem read_after_store (hij : i ≠ j) (hcompile : compile schema = .ok t) (s : SharedMemory ι) :
    (host i).read ((host j).after s (.store a schema)) = (host i).read s := by
  rw [after_store_ok hcompile]
  exact Function.update_of_ne hij _ _

theorem memory_after_store (hcompile : compile schema = .ok t) :
    ((host j).after (fresh prefixes) (.store a schema)).memory =
      MemoryStore.empty.set (prefixes j ++ a) t.encode 60 := by
  have hread : (host j).read ((host j).inserted a t (fresh prefixes)) =
      (Cache.ofConfig ⟨1, 60, prefixes j⟩).insert a t := Function.update_self _ _ _
  have hmemory : ((host j).inserted a t (fresh prefixes)).memory = .empty := rfl
  rw [after_store_ok hcompile]
  change MemoryStore.set _ (Cache.durableKey ((host j).read _) a) _ (Cache.config _).ttlSecs = _
  rw [hread, hmemory, Cache.durableKey, Cache.config_insert]
  rfl

theorem get_after_store (hcompile : compile schema = .ok t) :
    (store.get (prefixes j ++ a)).exec ((host j).after (fresh prefixes) (.store a schema)) =
      (.ok (some t.encode), (host j).after (fresh prefixes) (.store a schema)) := by
  have hget : (MemoryStore.empty.set (prefixes j ++ a) t.encode 60).get (prefixes j ++ a) =
      (some t.encode, MemoryStore.empty.set (prefixes j ++ a) t.encode 60) := by
    simp [MemoryStore.get, MemoryStore.set, MemoryStore.empty, Fields.put, Fields.get?]
  rw [exec_get, memory_after_store hcompile, hget, ← memory_after_store hcompile]

/-- Where the keys of two fingerprints meet, a cache finds what was stored in
the other one. -/
theorem resolve_leaked (hij : i ≠ j) (hmeet : prefixes j ++ a = prefixes i ++ b)
    (hcompile : compile schema = .ok t) (hdecode : Selection.decode? t.encode = some t) :
    (((host i).resolve b).exec ((host j).after (fresh prefixes) (.store a schema))).1 =
      .ok t := by
  have hread := read_after_store (a := a) hij hcompile (fresh prefixes)
  have hlocal : ((host i).read ((host j).after (fresh prefixes) (.store a schema))).lookup? b =
      none := by
    rw [hread]
    rfl
  have hget : (store.get (((host i).read ((host j).after (fresh prefixes)
      (.store a schema))).durableKey b)).exec ((host j).after (fresh prefixes) (.store a schema)) =
        (.ok (some t.encode), (host j).after (fresh prefixes) (.store a schema)) := by
    rw [hread]
    change (store.get (prefixes i ++ b)).exec _ = _
    rw [← hmeet, get_after_store hcompile]
  rw [exec_resolve_promoted hlocal rfl hget hdecode]
  simp only [Cache.promote, hlocal]

end Leak

def pair (p q : String) : Bool → String
  | false => p
  | true => q

/-- Two prefixes of which one extends the other leave neither cache alone: there
are fingerprints under which one finds what is stored in the other. -/
theorem not_isolated_of_extends {p q : String} (h : Extends p q ∨ Extends q p) : ∃ a b,
    (((host true).resolve (fingerprint b)).exec
      ((host false).after (fresh (pair p q)) (.store (fingerprint a) "ping"))).1 ≠
        (((host true).resolve (fingerprint b)).exec (fresh (pair p q))).1 := by
  obtain ⟨a, b, hmeet⟩ : ∃ a b,
      pair p q false ++ fingerprint a = pair p q true ++ fingerprint b := by
    rcases h with h | h
    · exact h.exists_same_key
    · obtain ⟨b, a, hmeet⟩ := h.exists_same_key
      exact ⟨a, b, hmeet.symm⟩
  refine ⟨a, b, ?_⟩
  rw [resolve_leaked (by decide) hmeet compile_ping decode_ping, resolve_fresh]
  simp

/-- The digit that the second prefix adds is the first one of a fingerprint. -/
theorem q_finds_q3 :
    "q" ≠ "q3" ∧ fingerprint "ab" = "3105" ∧ fingerprint "i" = "105" ∧
      (((host true).resolve (fingerprint "i")).exec (afterEach host (fresh (pair "q" "q3"))
        [(false, .store (fingerprint "ab") "ab")])).1 = .ok [.ofName "ab"] ∧
      (((host true).resolve (fingerprint "i")).exec ((host true).afterAll
        (fresh (pair "q" "q3")) (sentTo true [(false, .store (fingerprint "ab") "ab")]))).1 =
          .error (.cacheMiss "105") := by
  have hab : fingerprint "ab" = "3105" := by decide +kernel
  have hi : fingerprint "i" = "105" := by decide +kernel
  have hcompile : compile "ab" = .ok [.ofName "ab"] := by with_unfolding_all rfl
  have hdecode : Selection.decode? (Selection.encode [.ofName "ab"]) = some [.ofName "ab"] := by
    have htext : Selection.encode [.ofName "ab"] = "[\x7b\"name\":\"ab\"\x7d]" := by
      with_unfolding_all rfl
    rw [htext]
    exact decode_of_soleMember? (by decide +kernel)
  have hmeet : pair "q" "q3" false ++ fingerprint "ab" =
      pair "q" "q3" true ++ fingerprint "i" := by
    rw [hab, hi]
    decide
  refine ⟨by decide, hab, hi, ?_, ?_⟩
  · exact resolve_leaked (by decide) hmeet hcompile hdecode
  · rw [hi]
    exact resolve_fresh (pair "q" "q3") true "105"

end SharedMemory

end FieldQuery
