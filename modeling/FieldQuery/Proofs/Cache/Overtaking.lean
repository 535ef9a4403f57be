import FieldQuery.Proofs.Cache.Interleaving
import FieldQuery.Proofs.Cache.Reliable

/-!
Stores against look-ups that are under way. While a store holds the lock, the
local tier keeps its tree, and when it is done, both tiers have it. A look-up
that starts afterwards finds it, unless one that read an earlier tree before
still waits to take that over.
-/

namespace FieldQuery

namespace CacheTask

variable {σ : Type} {host : CacheHost σ} {task task' : CacheTask} {s s' : σ}

/-- Only who had to wait for the lock gets it. -/
theorem Step.awaitsLock_of_holdsLock (hstep : Step host task s task' s')
    (hlock : task'.holdsLock = true) : task.awaitsLock = true := by
  cases hstep with
  | insert => rfl
  | stay | _ => cases hlock

/-- Who gets the lock has put its tree into the local tier. -/
theorem Step.lookup?_of_holdsLock {valid : σ → Prop} (h : host.Lawful valid)
    (hstep : Step host task s task' s') (hs : valid s) (hlock : task'.holdsLock = true) :
    ∃ fingerprint t, task' = .writing fingerprint t ∧
      (host.read s').lookup? fingerprint = some t := by
  cases hstep with
  | @insert fingerprint schema t durable =>
      refine ⟨fingerprint, t, rfl, ?_⟩
      rw [h.read_write hs (Cache.config_insert _ _ _), Cache.lookup?_insert_self]
  | stay | _ => cases hlock

end CacheTask

namespace Pool

variable {σ : Type} {host : CacheHost σ} {valid : σ → Prop} {pool pool' : Pool σ} {move : Move}
  {schedule : List Move}

/-- Some job waits to take over a tree that it has read. -/
def Awaits (pool : Pool σ) (fingerprint : String) (t : Selection) : Prop :=
  ∃ job ∈ pool.jobs, job.task = .promoting fingerprint t

/-- Whoever holds the lock has its tree in the local tier. -/
def Guarded (host : CacheHost σ) (pool : Pool σ) : Prop :=
  ∀ job ∈ pool.jobs, job.holdsLock = true → ∃ fingerprint t, job.task = .writing fingerprint t ∧
    (host.read pool.state).lookup? fingerprint = some t

theorem Guarded.moves (h : host.Lawful valid) (hmove : pool.Moves host move pool')
    (hvalid : valid pool.state) (hpool : pool.Guarded host) : pool'.Guarded host := by
  cases hmove with
  | start request =>
      intro job hjob hlock
      rcases List.mem_append.mp hjob with hjob | hjob
      · exact hpool job hjob hlock
      · obtain rfl := List.mem_singleton.mp hjob
        cases request <;> cases hlock
  | @abandon place job hjob =>
      intro other hother hlock
      rcases List.mem_or_eq_of_mem_set hother with hother | rfl
      · exact hpool other hother hlock
      · simp [Job.holdsLock] at hlock
  | @advance place job task state hjob hmay hstep =>
      cases hawaits : job.task.awaitsLock with
      | true =>
          -- The lock was free, so nobody holds it but the job itself.
          have hidle : job.task.holdsLock = false := by
            cases htask : job.task <;> simp_all [CacheTask.awaitsLock, CacheTask.holdsLock]
          have hfree : job.abandoned = false ∧ pool.lockIsFree = true := by
            simpa [Job.mayAdvance, hawaits, hidle] using hmay
          intro other hother hlock
          rcases List.mem_or_eq_of_mem_set hother with hother | rfl
          · have hnot := List.all_eq_true.mp hfree.2 other hother
            simp [hlock] at hnot
          · exact hstep.lookup?_of_holdsLock h hvalid (Bool.and_eq_true_iff.mp hlock).1
      | false =>
          intro other hother hlock
          rcases List.mem_or_eq_of_mem_set hother with hother | rfl
          · obtain ⟨fingerprint, t, htask, hlocal⟩ := hpool other hother hlock
            exact ⟨fingerprint, t, htask, (hstep.lookup?_eq h hvalid hawaits _).trans hlocal⟩
          · have htask : task.holdsLock = true := (Bool.and_eq_true_iff.mp hlock).1
            rw [hstep.awaitsLock_of_holdsLock htask] at hawaits
            cases hawaits

theorem valid_of_moves (h : host.Lawful valid) (hmove : pool.Moves host move pool')
    (hvalid : valid pool.state) : valid pool'.state := by
  cases hmove with
  | start | abandon => exact hvalid
  | advance _ _ hstep => exact hstep.valid h hvalid

theorem Guarded.run (h : host.Lawful valid) {s : σ} (hs : valid s)
    (hrun : (Pool.idle s).run? host schedule = some pool) : pool.Guarded host := by
  refine (run?_induction (P := fun pool => valid pool.state ∧ pool.Guarded host) hrun ?_
    ⟨hs, by simp [Guarded, Pool.idle]⟩).2
  rintro _ pool pool' - hmove ⟨hvalid, hpool⟩
  exact ⟨valid_of_moves h hmove hvalid, hpool.moves h hmove hvalid⟩

end Pool

namespace CacheHost

/-- Anything may stand anywhere. -/
def Ledger.any : Ledger := ⟨fun _ _ => True, fun _ _ => True, fun _ _ => trivial⟩

/-- Under the fingerprint stands one tree, which reads back as it is, or in the
local tier one of some others; under other fingerprints anything. -/
def Ledger.upon (fingerprint : String) (t : Selection) (others : Selection → Prop)
    (hsurvives : Selection.decode? t.encode = some t) : Ledger where
  tree other u := other = fingerprint → u = t ∨ others u
  text other text := other = fingerprint → text = t.encode
  tree_of_text := by
    intro other text u htext hdecode hother
    rw [htext hother, hsurvives] at hdecode
    exact .inl (Option.some.inj hdecode).symm

theorem Ledger.covered_upon {fingerprint : String} {t : Selection} {others : Selection → Prop}
    {hsurvives : Selection.decode? t.encode = some t} {request : CacheRequest}
    (h : ∀ schema, request ≠ .store fingerprint schema) :
    request.Covered (.upon fingerprint t others hsurvives) := by
  cases request with
  | resolve | clear => trivial
  | store other schema =>
      have hother : other ≠ fingerprint := by
        rintro rfl
        exact h schema rfl
      intro u _
      exact ⟨fun heq => absurd heq hother, fun heq => absurd heq hother⟩

end CacheHost

section

variable {σ : Type} {host : CacheHost σ} {valid : σ → Prop}
  {contents : σ → String → Option String} {s : σ} {schedule earlier : List Move}
  {pool stored : Pool σ} {place : Nat} {fingerprint schema : String} {t : Selection}
  {config : CacheConfig}

/-- What holds of every run of jobs over a new cache: the local tier keeps
within its room, and jobs serve their requests. -/
theorem Pool.keeps_any (h : host.Reliable valid contents) (hs : valid s)
    (hempty : (host.read s).entries = [])
    (hrun : (Pool.idle s).run? host schedule = some pool) :
    pool.Keeps (host.Sound valid (CacheHost.Holding contents) (host.read s).config .any)
      (fun _ request task => CacheTask.Serves host .any request task) := by
  have hstart : host.Sound valid (CacheHost.Holding contents) (host.read s).config .any s :=
    ⟨hs, .of_empty rfl hempty, fun _ _ _ => trivial⟩
  refine (Pool.Keeps.idle hstart).run hrun ?_ fun hstep hs htask =>
    (htask.step h.honest hstep hs).symm
  intro place request _ _
  apply CacheTask.Serves.of_request
  cases request with
  | resolve | clear => trivial
  | store => exact fun _ _ => ⟨trivial, trivial⟩

/-- When a store is done, both tiers have its tree. -/
theorem Pool.both_tiers_of_stored (h : host.Reliable valid contents) (hs : valid s)
    (hempty : (host.read s).entries = []) (hcompile : compile schema = .ok t)
    (hearlier : (Pool.idle s).run? host earlier = some pool) {task : CacheTask}
    (hstore : pool.jobs[place]? = some ⟨.store fingerprint schema, task, false⟩)
    (hunfinished : ∀ result, task ≠ .done result)
    (hlast : pool.move? host (.advance place) = some stored)
    {result : Except Failure (Option Selection)}
    (hfinished : stored.jobs[place]? = some ⟨.store fingerprint schema, .done result, false⟩) :
    (host.read stored.state).lookup? fingerprint = some t ∧
      contents stored.state ((host.read s).config.keyPrefix ++ fingerprint) = some t.encode := by
  have hkeeps := Pool.keeps_any h hs hempty hearlier
  cases Pool.moves_of_move? hlast with
  | @advance _ job task' state hjob hmay hstep =>
      cases hstore.symm.trans hjob
      obtain rfl : task' = .done result := by
        have hplace : place < pool.jobs.length := (List.getElem?_eq_some_iff.mp hjob).1
        simpa [List.getElem?_set_self hplace] using hfinished
      have hserves := hkeeps.jobs place _ hstore
      dsimp only at hstep hserves
      cases hserves with
      | store =>
          cases hstep with
          | refuse herror => simp [hcompile] at herror
          | keep _ hdurable => simpa [hdurable] using h.isSome_durable
      | writing hcompile' =>
          cases hcompile.symm.trans hcompile'
          obtain ⟨_, _, htask, hlocal⟩ := Pool.Guarded.run h.toLawful hs hearlier _
            (List.mem_of_getElem? hstore) rfl
          cases htask
          cases hstep with
          | write hdurable =>
              refine ⟨?_, ?_⟩
              · rwa [h.read_set _ _ hkeeps.state.valid hdurable]
              · rw [h.contents_set _ _ _ hkeeps.state.valid hdurable, hkeeps.state.durableKey_eq,
                  if_pos rfl]
          | unwritten hdurable => simpa [hdurable] using h.isSome_durable
      | done => exact absurd rfl (hunfinished _)

/-- What is known of a task from the moment on when there were `n` jobs: one
that was done by then has had its answer, any other serves its request, and
later look-ups of the fingerprint do not miss. -/
structure CacheTask.Follows (host : CacheHost σ) (ledger : CacheHost.Ledger) (fingerprint : String)
    (n place : Nat) (request : CacheRequest) (task : CacheTask) : Prop where
  serves : CacheTask.Serves host ledger request task ∨ (place < n ∧ ∃ result, task = .done result)
  onTrack : n ≤ place → request = .resolve fingerprint → CacheTask.OnTrack fingerprint task

theorem CacheTask.Follows.step (h : host.Reliable valid contents) {ledger : CacheHost.Ledger}
    {n place : Nat} {request : CacheRequest} {task task' : CacheTask} {s s' : σ}
    (hstep : CacheTask.Step host task s task' s')
    (hs : host.Supplied valid contents config ledger fingerprint s)
    (htask : CacheTask.Follows host ledger fingerprint n place request task) :
    host.Supplied valid contents config ledger fingerprint s' ∧
      CacheTask.Follows host ledger fingerprint n place request task' := by
  have htrack := fun hplace hrequest => (htask.onTrack hplace hrequest).step h hs hstep
  rcases htask.serves with hserves | ⟨hplace, result, rfl⟩
  · obtain ⟨hserves', hs'⟩ := hserves.step_supplied h hstep hs
    exact ⟨hs', .inl hserves', htrack⟩
  · cases hstep
    exact ⟨hs, .inr ⟨hplace, result, rfl⟩, htrack⟩

/-- When a store is done and no other under its fingerprint is under way, all
jobs go by its tree, or by one that some of them wait to take over. -/
theorem Pool.follows_of_stored (hsurvives : Selection.decode? t.encode = some t)
    (hkeeps : pool.Keeps (host.Sound valid (CacheHost.Holding contents) config .any)
      (fun _ request task => CacheTask.Serves host .any request task))
    (hlocal : (host.read pool.state).lookup? fingerprint = some t)
    (hheld : contents pool.state (config.keyPrefix ++ fingerprint) = some t.encode)
    (hothers : ∀ job ∈ pool.jobs, ∀ other, job.request = .store fingerprint other →
      ∃ result, job.task = .done result) :
    pool.Keeps
      (host.Supplied valid contents config
        (.upon fingerprint t (pool.Awaits fingerprint) hsurvives) fingerprint)
      (CacheTask.Follows host (.upon fingerprint t (pool.Awaits fingerprint) hsurvives)
        fingerprint pool.jobs.length) := by
  constructor
  · refine ⟨⟨hkeeps.state.valid, ?_, ?_⟩, by simp [hheld], ?_⟩
    · refine ⟨hkeeps.state.within.config_eq, hkeeps.state.within.room, ?_⟩
      rintro _ u hu rfl
      exact .inl (Option.some.inj (hu.symm.trans hlocal))
    · rintro _ text htext rfl
      exact Option.some.inj (htext.symm.trans hheld)
    · intro text htext
      rw [htext rfl, hsurvives]
      rfl
  · intro place job hjob
    have hplace : place < pool.jobs.length := (List.getElem?_eq_some_iff.mp hjob).1
    refine ⟨?_, fun hlate => absurd hplace (Nat.not_lt.mpr hlate)⟩
    have hmem := List.mem_of_getElem? hjob
    have hserves := hkeeps.jobs place job hjob
    obtain ⟨request, task, abandoned⟩ := job
    dsimp only at hserves ⊢
    cases hserves with
    | resolve f => exact .inl (.resolve f)
    | reading f => exact .inl (.reading f)
    | promoting =>
        refine .inl (.promoting ?_)
        rintro rfl
        exact .inr ⟨_, hmem, rfl⟩
    | @store f other =>
        refine .inl (.store (CacheHost.Ledger.covered_upon ?_))
        rintro _ ⟨⟩
        obtain ⟨result, hdone⟩ := hothers _ hmem other rfl
        cases hdone
    | @writing f other u hcompile =>
        have hother : f ≠ fingerprint := by
          rintro rfl
          obtain ⟨result, hdone⟩ := hothers _ hmem other rfl
          cases hdone
        exact .inl (.writing hcompile ⟨fun heq => absurd heq hother, fun heq => absurd heq hother⟩)
    | clear => exact .inl .clear
    | done => exact .inr ⟨hplace, _, rfl⟩

end

/-- A look-up that starts when a store under its fingerprint is done, while no
other is under way or follows, finds the tree of that store. Only if another
look-up had read an earlier tree before and still waited to take it over when
the store was done, may that tree be found instead. -/
theorem resolve_after_store {σ : Type} {host : CacheHost σ} {valid : σ → Prop}
    {contents : σ → String → Option String} (h : host.Reliable valid contents) {s : σ}
    (hs : valid s) (hempty : (host.read s).entries = []) {fingerprint schema : String}
    {t : Selection} (hcompile : compile schema = .ok t)
    (hsurvives : Selection.decode? t.encode = some t) {earlier later : List Move}
    {pool stored final : Pool σ} {place : Nat} {task : CacheTask}
    {result : Except Failure (Option Selection)}
    (hearlier : (Pool.idle s).run? host earlier = some pool)
    (hstore : pool.jobs[place]? = some ⟨.store fingerprint schema, task, false⟩)
    (hunfinished : ∀ result, task ≠ .done result)
    (hlast : pool.move? host (.advance place) = some stored)
    (hfinished : stored.jobs[place]? = some ⟨.store fingerprint schema, .done result, false⟩)
    (hothers : ∀ job ∈ stored.jobs, ∀ other, job.request = .store fingerprint other →
      ∃ result, job.task = .done result)
    (hlater : stored.run? host later = some final)
    (hnomore : ∀ other, .start (.store fingerprint other) ∉ later) {resolved : Nat}
    {abandoned : Bool} {answer : Except Failure (Option Selection)}
    (hstarted : stored.jobs.length ≤ resolved)
    (hresolved : final.jobs[resolved]? = some ⟨.resolve fingerprint, .done answer, abandoned⟩) :
    ∃ u, answer = .ok (some u) ∧ (u = t ∨ stored.Awaits fingerprint u) := by
  obtain ⟨hlocal, hheld⟩ := Pool.both_tiers_of_stored h hs hempty hcompile hearlier hstore
    hunfinished hlast hfinished
  have hkeeps := (Pool.keeps_any h hs hempty hearlier).moves (Pool.moves_of_move? hlast)
    (by simp) fun hstep hs htask => (htask.step h.honest hstep hs).symm
  have hfollows := Pool.follows_of_stored hsurvives hkeeps hlocal hheld hothers
  have hend := hfollows.run hlater ?_ fun hstep hs htask => htask.step h hstep hs
  · obtain ⟨hserves, htrack⟩ := hend.jobs resolved _ hresolved
    cases htrack hstarted rfl with
    | done u =>
        rcases hserves with hserves | ⟨hearly, -⟩
        · cases hserves with
          | done hanswers =>
              cases hanswers with
              | found hu => exact ⟨u, rfl, hu rfl⟩
        · exact absurd hearly (Nat.not_lt.mpr hstarted)
  · intro place request hmem hplace
    refine ⟨.inl (.of_request (CacheHost.Ledger.covered_upon ?_)), ?_⟩
    · rintro other rfl
      exact hnomore other hmem
    · rintro - rfl
      exact .resolve

/-- A tree was stored, the local tier wiped, and a look-up is under way. -/
def lookingUp (task : CacheTask) : Pool MemoryHost where
  state := ⟨.ofConfig ⟨1, 60, "query-"⟩,
    ⟨[("query-x", Selection.encode [.ofName "ping"], 60)]⟩, []⟩
  jobs := [⟨.store "x" "ping", .done (.ok (some [.ofName "ping"])), false⟩,
    ⟨.clear, .done (.ok none), false⟩, ⟨.resolve "x", task, false⟩]

theorem lookingUp_find :
    (lookingUp (.reading "x")).move? MemoryHost.host (.advance 2) =
      some (lookingUp (.promoting "x" [.ofName "ping"])) := by
  have hread : (CacheTask.advance MemoryHost.host (.reading "x")).run
      (lookingUp (.reading "x")).state =
        (.promoting "x" [.ofName "ping"], (lookingUp (.reading "x")).state) :=
    CacheTask.advance_reading_find rfl rfl decode_ping
  have hjob : (lookingUp (.reading "x")).jobs[2]? =
      some ⟨.resolve "x", .reading "x", false⟩ := rfl
  exact Pool.move?_advance hjob rfl hread

/-- A look-up after a wipe finds the tree in the durable tier. -/
theorem wiped_ping_resolved :
    ∃ stored final : Pool MemoryHost, ∃ answer : Except Failure (Option Selection),
      stored.run? MemoryHost.host
        ([.start .clear, .advance 1, .start (.resolve "x"), .advance 2] ++
          [.advance 2, .advance 2]) = some final ∧
      final.jobs[2]? = some ⟨.resolve "x", .done answer, false⟩ ∧
      ∃ u, answer = .ok (some u) ∧
        (u = [.ofName "ping"] ∨ stored.Awaits "x" u) := by
  have hearlier : (Pool.idle (MemoryHost.fresh [])).run? MemoryHost.host
      [.start (.store "x" "ping"), .advance 0] =
        some ⟨⟨⟨⟨1, 60, "query-"⟩, [("x", [.ofName "ping"])], 0, 0, 0⟩, .empty, []⟩,
          [⟨.store "x" "ping", .writing "x" [.ofName "ping"], false⟩]⟩ := by
    with_unfolding_all rfl
  have hlast : Pool.move? MemoryHost.host
      ⟨⟨⟨⟨1, 60, "query-"⟩, [("x", [.ofName "ping"])], 0, 0, 0⟩, .empty, []⟩,
        [⟨.store "x" "ping", .writing "x" [.ofName "ping"], false⟩]⟩ (.advance 0) =
      some ⟨⟨⟨⟨1, 60, "query-"⟩, [("x", [.ofName "ping"])], 0, 0, 0⟩,
          ⟨[("query-x", Selection.encode [.ofName "ping"], 60)]⟩, []⟩,
        [⟨.store "x" "ping", .done (.ok (some [.ofName "ping"])), false⟩]⟩ := rfl
  have hlater : Pool.run? MemoryHost.host
      ⟨⟨⟨⟨1, 60, "query-"⟩, [("x", [.ofName "ping"])], 0, 0, 0⟩,
          ⟨[("query-x", Selection.encode [.ofName "ping"], 60)]⟩, []⟩,
        [⟨.store "x" "ping", .done (.ok (some [.ofName "ping"])), false⟩]⟩
      ([.start .clear, .advance 1, .start (.resolve "x"), .advance 2] ++
        [.advance 2, .advance 2]) = some _ :=
    Pool.run?_append_cons rfl lookingUp_find rfl
  have hresolved := resolve_after_store MemoryHost.reliable ⟨MemoryHost.lasting_fresh [], rfl⟩ rfl
    compile_ping decode_ping hearlier rfl (by simp) hlast rfl (by simp) hlater (by simp)
    (Nat.le_succ 1) rfl
  exact ⟨_, _, _, hlater, rfl, hresolved⟩

/-- A look-up reads the durable tier; a store replaces the tree and is done; the
local tier is wiped; the look-up takes over what it read; and a look-up that
starts only then is answered with the tree that was replaced. -/
theorem replaced_tree_taken_over :
    ∃ stored final : Pool MemoryHost,
      (Pool.idle (MemoryHost.fresh [])).run? MemoryHost.host
        ([.start (.store "x" "ping"), .advance 0, .advance 0, .start .clear, .advance 1,
            .start (.resolve "x"), .advance 2] ++
          [.advance 2, .start (.store "x" "pong"), .advance 3, .advance 3]) = some stored ∧
      (∀ job ∈ stored.jobs, ∀ schema, job.request = .store "x" schema →
        ∃ result, job.task = .done result) ∧
      stored.jobs[3]? = some ⟨.store "x" "pong", .done (.ok (some [.ofName "pong"])), false⟩ ∧
      stored.run? MemoryHost.host
        [.start .clear, .advance 4, .advance 2, .start (.resolve "x"), .advance 5] = some final ∧
      stored.jobs.length ≤ 5 ∧
      final.jobs[5]? = some ⟨.resolve "x", .done (.ok (some [.ofName "ping"])), false⟩ := by
  have hread : (Pool.idle (MemoryHost.fresh [])).run? MemoryHost.host
      [.start (.store "x" "ping"), .advance 0, .advance 0, .start .clear, .advance 1,
        .start (.resolve "x"), .advance 2] = some (lookingUp (.reading "x")) := by
    with_unfolding_all rfl
  have hstored : (lookingUp (.promoting "x" [.ofName "ping"])).run? MemoryHost.host
      [.start (.store "x" "pong"), .advance 3, .advance 3] =
        some ⟨⟨⟨⟨1, 60, "query-"⟩, [("x", [.ofName "pong"])], 0, 0, 0⟩,
            ⟨[("query-x", Selection.encode [.ofName "pong"], 60)]⟩, []⟩,
          (lookingUp (.promoting "x" [.ofName "ping"])).jobs ++
            [⟨.store "x" "pong", .done (.ok (some [.ofName "pong"])), false⟩]⟩ := by
    with_unfolding_all rfl
  refine ⟨_, _, Pool.run?_append_cons hread lookingUp_find hstored, ?_, rfl, rfl, ?_, rfl⟩
  · simp [lookingUp]
  · exact Nat.le_succ 4

end FieldQuery
