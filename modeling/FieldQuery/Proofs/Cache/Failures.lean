import FieldQuery.Proofs.Cache.Memory
import FieldQuery.Proofs.Cache.Sequential

/-!
A cache over a durable tier that fails. A failed write is passed over, so the
tier may go on holding the text of an earlier tree, which comes back once the
local tier has forgotten the later one.
-/

namespace FieldQuery

open CacheHost in
/-- Whatever calls of the durable tier fail, a look-up finds the tree last
stored, or what the tree last written reads back as, or nothing. If the tree
last stored is the one last written and reads back as it is, no other is
found. -/
theorem resolve_with_failures {σ : Type} {host : CacheHost σ} {valid : σ → Prop}
    {holds : σ → String → String → Prop} (h : host.Fallible valid holds) {s : σ} (hs : valid s)
    (hempty : (host.read s).entries = [])
    (hnothing : ∀ other text, ¬ holds s ((host.read s).config.keyPrefix ++ other) text)
    (requests : List CacheRequest) (fingerprint : String) :
    (((host.resolve fingerprint).exec (host.afterAll s requests)).1 =
        .error (.cacheMiss fingerprint) ∨
      ∃ t, ((host.resolve fingerprint).exec (host.afterAll s requests)).1 = .ok t ∧
        (QueryMap.empty.afterAll requests fingerprint = some t ∨
          ∃ u, host.writtenAll s .empty requests fingerprint = some u ∧
            Selection.decode? u.encode = some t)) ∧
    (host.writtenAll s .empty requests fingerprint =
        QueryMap.empty.afterAll requests fingerprint →
      (∀ t, QueryMap.empty.afterAll requests fingerprint = some t →
        Selection.decode? t.encode = some t) →
      ((host.resolve fingerprint).exec (host.afterAll s requests)).1 =
          .error (.cacheMiss fingerprint) ∨
        ∃ t, ((host.resolve fingerprint).exec (host.afterAll s requests)).1 = .ok t ∧
          QueryMap.empty.afterAll requests fingerprint = some t) := by
  have hstart : host.Sound valid holds (host.read s).config (.ofMaps .empty .empty) s :=
    .of_fresh hs hempty hnothing
  have hanswer := (hstart.afterAll_maps h requests).resolve h.toHonest fingerprint
  refine ⟨hanswer, fun hwritten hsurvives => hanswer.imp_right ?_⟩
  rintro ⟨t, hfound, ht | ⟨u, hu, hdecode⟩⟩
  · exact ⟨t, hfound, ht⟩
  · rw [hwritten] at hu
    rw [hsurvives u hu] at hdecode
    exact ⟨t, hfound, Option.some.inj hdecode ▸ hu⟩

/-- A failed write does no harm when a later one goes through. -/
theorem rewritten_tree_resolved :
    ((MemoryHost.host.resolve "x").exec (MemoryHost.host.afterAll (.fresh [true])
        [.store "x" "pong", .store "x" "ping", .clear])).1 = .error (.cacheMiss "x") ∨
      ∃ t, ((MemoryHost.host.resolve "x").exec (MemoryHost.host.afterAll (.fresh [true])
          [.store "x" "pong", .store "x" "ping", .clear])).1 = .ok t ∧
        QueryMap.empty.afterAll [.store "x" "pong", .store "x" "ping", .clear] "x" = some t := by
  have hstored : QueryMap.empty.afterAll [.store "x" "pong", .store "x" "ping", .clear] "x" =
      some [.ofName "ping"] := by
    simp [QueryMap.afterAll, QueryMap.after, compile_ping, compile_pong]
  refine (resolve_with_failures MemoryHost.fallible (MemoryHost.lasting_fresh [true]) rfl
    (fun _ _ => MemoryHost.contents_fresh_ne _ _ _) [.store "x" "pong", .store "x" "ping", .clear] "x").2 ?_ ?_
  · rw [hstored]
    simp only [CacheHost.writtenAll, CacheHost.writtenAfter, compile_ping, compile_pong,
      CacheHost.after_store_ok compile_pong]
    rfl
  · intro t ht
    rw [hstored] at ht
    exact Option.some.inj ht ▸ decode_ping

/-- After a failed write and a wipe, the tree that was replaced comes back. -/
theorem replaced_tree_resolved :
    ((MemoryHost.host.resolve "x").exec (MemoryHost.host.afterAll (.fresh [false, true])
      [.store "x" "ping", .store "x" "pong", .clear])).1 = .ok [.ofName "ping"] ∧
    QueryMap.empty.afterAll [.store "x" "ping", .store "x" "pong", .clear] "x" =
      some [.ofName "pong"] := by
  constructor
  · have hafter : MemoryHost.host.afterAll (.fresh [false, true])
        [.store "x" "ping", .store "x" "pong", .clear] =
          ⟨⟨⟨1, 60, "query-"⟩, [], 0, 0, 0⟩,
            ⟨[("query-x", Selection.encode [.ofName "ping"], 60)]⟩, []⟩ := by
      simp only [CacheHost.afterAll, List.foldl_cons, List.foldl_nil,
        CacheHost.after_store_ok compile_ping, CacheHost.after_store_ok compile_pong]
      rfl
    rw [hafter, CacheHost.exec_resolve_promoted rfl rfl rfl decode_ping]
    rfl
  · simp [QueryMap.afterAll, QueryMap.after, compile_ping, compile_pong]

end FieldQuery
