import FieldQuery.Proofs.Cache.Sequential

/-!
Reliable durable tiers. What has got into one stays under its key until it is
overwritten, so a look-up of a fingerprint whose text reads back does not miss,
whatever happens to the local tier meanwhile.
-/

namespace FieldQuery

variable {σ : Type} {host : CacheHost σ} {valid : σ → Prop}
  {contents : σ → String → Option String} {s s' : σ} {fingerprint : String}

namespace CacheTask

variable {task task' : CacheTask}

/-- A key that holds something goes on holding something. -/
theorem Step.isSome_contents (h : host.Reliable valid contents)
    (hstep : Step host task s task' s') (hs : valid s) {key : String}
    (hkey : (contents s key).isSome = true) : (contents s' key).isSome = true := by
  cases htask : task.holdsLock with
  | false =>
      refine (hstep.closed (P := fun s => valid s ∧ (contents s key).isSome = true) ?_ ?_ htask
        ⟨hs, hkey⟩).2
      · rintro s c ⟨hs, hkey⟩ hconfig
        exact ⟨h.valid_write hs hconfig, by rwa [h.contents_write hs hconfig]⟩
      · rintro s _ durable asked _ ⟨hs, hkey⟩ hdurable hget
        obtain rfl := congrArg Prod.snd hget
        exact ⟨h.valid_get asked hs hdurable, by rwa [h.contents_get asked hs hdurable]⟩
  | true =>
      cases hstep with
      | write hdurable =>
          rw [h.contents_set _ _ _ hs hdurable]
          split
          · rfl
          · exact hkey
      | unwritten => exact hkey
      | _ => cases htask

end CacheTask

/-- A sound state whose durable tier holds a text for the fingerprint, where
such texts read back. -/
structure CacheHost.Supplied (host : CacheHost σ) (valid : σ → Prop)
    (contents : σ → String → Option String) (config : CacheConfig) (ledger : Ledger)
    (fingerprint : String) (s : σ) : Prop where
  sound : host.Sound valid (Holding contents) config ledger s
  isSome_contents : (contents s (config.keyPrefix ++ fingerprint)).isSome = true
  isSome_decode : ∀ text, ledger.text fingerprint text → (Selection.decode? text).isSome = true

namespace CacheTask

variable {task task' : CacheTask} {config : CacheConfig} {ledger : CacheHost.Ledger}
  {request : CacheRequest}

/-- One step keeps the tier supplied, and the task serving its request. -/
theorem Serves.step_supplied (h : host.Reliable valid contents)
    (htask : Serves host ledger request task) (hstep : Step host task s task' s')
    (hs : host.Supplied valid contents config ledger fingerprint s) :
    Serves host ledger request task' ∧
      host.Supplied valid contents config ledger fingerprint s' := by
  obtain ⟨hserves, hsound⟩ := htask.step h.honest hstep hs.sound
  exact ⟨hserves, hsound, hstep.isSome_contents h hs.sound.valid hs.isSome_contents,
    hs.isSome_decode⟩

/-- Stages of a look-up that has not missed. -/
inductive OnTrack (fingerprint : String) : CacheTask → Prop
  | resolve : OnTrack fingerprint (.resolve fingerprint)
  | reading : OnTrack fingerprint (.reading fingerprint)
  | promoting (t : Selection) : OnTrack fingerprint (.promoting fingerprint t)
  | done (t : Selection) : OnTrack fingerprint (.done (.ok (some t)))

/-- A look-up stays on its track if the durable tier is supplied for it. -/
theorem OnTrack.step (h : host.Reliable valid contents)
    (hs : host.Supplied valid contents config ledger fingerprint s)
    (hstep : Step host task s task' s') (htask : OnTrack fingerprint task) :
    OnTrack fingerprint task' := by
  cases hstep with
  | hit | promote =>
      cases htask
      exact .done _
  | ask =>
      cases htask
      exact .reading
  | find =>
      cases htask
      exact .promoting _
  | absent _ hdurable | unread hdurable => simpa [hdurable] using h.isSome_durable
  | lose hdurable hget hresult =>
      cases htask
      obtain ⟨text, htext⟩ := Option.isSome_iff_exists.mp hs.isSome_contents
      obtain ⟨t, ht⟩ := Option.isSome_iff_exists.mp
        (hs.isSome_decode text (hs.sound.text _ _ htext))
      have hanswer := h.get_eq ((host.read s).durableKey fingerprint) hs.sound.valid hdurable
      rw [hget, hs.sound.durableKey_eq, htext] at hanswer
      exact absurd ht (hresult text t hanswer)
  | stay => exact htask
  | refuse | insert | keep | write | unwritten | wipe => cases htask

end CacheTask

namespace CacheHost

variable {config : CacheConfig} {ledger : Ledger} {t : Selection}

theorem Reliable.exec_persist (h : host.Reliable valid contents) (hs : valid s)
    (fingerprint : String) (t : Selection) :
    ∃ s', host.persist fingerprint t s = (true, s') ∧
      contents s' ((host.read s).durableKey fingerprint) = some t.encode := by
  obtain ⟨durable, hdurable⟩ := Option.isSome_iff_exists.mp h.isSome_durable
  refine ⟨((durable.set ((host.read s).durableKey fingerprint) t.encode
    (host.read s).config.ttlSecs).exec s).2, ?_, ?_⟩
  · simp only [persist, hdurable, h.set_eq _ _ hs hdurable]
    rfl
  · rw [h.contents_set _ _ _ hs hdurable, if_pos rfl]

/-- A look-up that runs alone finds a tree if the durable tier is supplied for
it. -/
theorem Supplied.resolve (h : host.Reliable valid contents)
    (hs : host.Supplied valid contents config ledger fingerprint s) :
    ∃ t, ((host.resolve fingerprint).exec s).1 = .ok t ∧ ledger.tree fingerprint t := by
  obtain ⟨result, s', hexec, -, -, htrack⟩ := CacheTask.run_induction
    (P := fun task s => CacheTask.Serves host ledger (.resolve fingerprint) task ∧
      host.Supplied valid contents config ledger fingerprint s ∧
      CacheTask.OnTrack fingerprint task)
    (by
      rintro task s task' s' hstep ⟨hserves, hs, htrack⟩
      obtain ⟨hserves', hs'⟩ := hserves.step_supplied h hstep hs
      exact ⟨hserves', hs', htrack.step h hs hstep⟩)
    ⟨.resolve fingerprint, hs, .resolve⟩
  rcases hs.sound.resolve h.honest fingerprint with hmiss | hfound
  · rw [CacheHost.resolve, Run.exec_map, hexec] at hmiss
    cases htrack
    cases hmiss
  · exact hfound

end CacheHost

end FieldQuery
