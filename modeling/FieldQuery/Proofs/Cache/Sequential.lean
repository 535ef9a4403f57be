import FieldQuery.Proofs.Cache.Steps

/-!
Requests carried out one after the other. A task that runs alone is done after
three steps at most, so whatever each step preserves also holds of its answer.
What may stand in the tiers after some requests is told by two maps: the trees
last stored, and the trees whose write to the durable tier last went through.
-/

namespace FieldQuery

theorem Run.exec_map {σ α β : Type} (action : Run σ α) (f : α → β) (s : σ) :
    Run.exec (do return f (← action)) s = ((action.exec s).1.map f, (action.exec s).2) := by
  change (ExceptT.bindCont (fun a => pure (f a)) (action.exec s).1 : StateM σ _).run
    (action.exec s).2 = _
  cases (action.exec s).1 <;> rfl

namespace CacheTask

variable {σ : Type} {host : CacheHost σ} {task : CacheTask} {s s' : σ}

theorem advanceTimes_succ (host : CacheHost σ) (n : Nat) (task : CacheTask) (s : σ) :
    (advanceTimes host (n + 1) task).run s =
      (advanceTimes host n ((task.advance host).run s).1).run ((task.advance host).run s).2 :=
  rfl

theorem advanceTimes_stepsLeft (host : CacheHost σ) (n : Nat) (task : CacheTask) (s : σ) :
    ((advanceTimes host n task).run s).1.stepsLeft ≤ task.stepsLeft - n := by
  induction n generalizing task s with
  | zero => exact Nat.le_refl _
  | succ n ih =>
      rw [advanceTimes_succ]
      have hstep := (advance_step host task s).stepsLeft_le
      exact Nat.le_trans (ih _ _) (by omega)

theorem advanceTimes_induction {P : CacheTask → σ → Prop}
    (hstep : ∀ {task s task' s'}, Step host task s task' s' → P task s → P task' s')
    (n : Nat) (h : P task s) :
    P ((advanceTimes host n task).run s).1 ((advanceTimes host n task).run s).2 := by
  induction n generalizing task s with
  | zero => exact h
  | succ n ih => exact ih (hstep (advance_step host task s) h)

theorem exec_run_of_done {result : Except Failure (Option Selection)}
    (h : (advanceTimes host 3 task).run s = (.done result, s')) :
    (CacheTask.run host task).exec s = (result, s') := by
  simp only [CacheTask.run, Run.exec, ExceptT.run_mk, StateT.run_bind, h]
  rfl

/-- A task that runs alone is done in the end, and what each step preserves
holds there. -/
theorem run_induction {P : CacheTask → σ → Prop}
    (hstep : ∀ {task s task' s'}, Step host task s task' s' → P task s → P task' s')
    (h : P task s) :
    ∃ result s', (CacheTask.run host task).exec s = (result, s') ∧ P (.done result) s' := by
  have hend := advanceTimes_induction hstep 3 h
  have hsteps := advanceTimes_stepsLeft host 3 task s
  obtain ⟨task', s', hrun⟩ : ∃ task' s', (advanceTimes host 3 task).run s = (task', s') :=
    ⟨_, _, rfl⟩
  rw [hrun] at hend hsteps
  change task'.stepsLeft ≤ _ at hsteps
  have hdone : task'.stepsLeft = 0 := by
    have hbound : task.stepsLeft ≤ 3 := by cases task <;> exact Nat.le_of_ble_eq_true rfl
    omega
  cases task' with
  | done result => exact ⟨result, s', exec_run_of_done hrun, hend⟩
  | resolve | reading | promoting | store | writing | clear => cases hdone

/-- A text that reads back is taken on for promotion. -/
theorem advance_reading_find {fingerprint text : String} {t : Selection} {durable : DurableStore σ}
    (hdurable : host.durable = some durable)
    (hget : (durable.get ((host.read s).durableKey fingerprint)).exec s = (.ok (some text), s'))
    (hdecode : Selection.decode? text = some t) :
    (advance host (.reading fingerprint)).run s = (.promoting fingerprint t, s') := by
  obtain ⟨task', s'', hadvance⟩ : ∃ task' s'',
      (advance host (.reading fingerprint)).run s = (task', s'') := ⟨_, _, rfl⟩
  have hstep := advance_step host (.reading fingerprint) s
  rw [hadvance] at hstep ⊢
  cases hstep with
  | find hdurable' hget' hdecode' =>
      obtain rfl := Option.some.inj (hdurable.symm.trans hdurable')
      rw [hget] at hget'
      cases hget'
      rw [hdecode] at hdecode'
      cases hdecode'
      rfl
  | lose hdurable' hget' hresult =>
      obtain rfl := Option.some.inj (hdurable.symm.trans hdurable')
      rw [hget] at hget'
      cases hget'
      exact absurd hdecode (hresult text t rfl)
  | unread hdurable' => simp [hdurable] at hdurable'

end CacheTask

namespace CacheHost

variable {σ : Type} {host : CacheHost σ} {s : σ} {fingerprint schema : String} {t : Selection}

/-- Writes a tree to the durable tier if there is one, and tells whether that
went through. -/
def persist (host : CacheHost σ) (fingerprint : String) (t : Selection) (s : σ) : Bool × σ :=
  match host.durable with
  | none => (false, s)
  | some durable =>
      let (result, s) := (durable.set ((host.read s).durableKey fingerprint) t.encode
        (host.read s).config.ttlSecs).exec s
      (result.isOk, s)

/-- State with a tree inserted into the local tier. -/
def inserted (host : CacheHost σ) (fingerprint : String) (t : Selection) (s : σ) : σ :=
  host.write ((host.read s).insert fingerprint t) s

/-- A schema that does not compile leaves everything as it was. -/
theorem exec_store_error {e : Failure} (hcompile : compile schema = .error e) (s : σ) :
    (host.store fingerprint schema).exec s = (.error e, s) := by
  have hrun : (CacheTask.run host (.store fingerprint schema)).exec s = (.error e, s) := by
    apply CacheTask.exec_run_of_done
    simp only [CacheTask.advanceTimes, CacheTask.advance, hcompile]
    rfl
  rw [store, Run.exec_map, hrun]
  rfl

theorem exec_store_ok (hcompile : compile schema = .ok t) (s : σ) :
    (host.store fingerprint schema).exec s =
      (.ok t, (host.persist fingerprint t (host.inserted fingerprint t s)).2) := by
  have hrun : (CacheTask.run host (.store fingerprint schema)).exec s =
      (.ok (some t), (host.persist fingerprint t (host.inserted fingerprint t s)).2) := by
    apply CacheTask.exec_run_of_done
    unfold persist
    cases hdurable : host.durable <;>
      simp only [CacheTask.advanceTimes, CacheTask.advance, hcompile, hdurable] <;> rfl
  rw [store, Run.exec_map, hrun]
  rfl

theorem exec_resolve_hit (hlocal : (host.read s).lookup? fingerprint = some t) :
    (host.resolve fingerprint).exec s = (.ok t, host.write (host.read s).countHit s) := by
  have hrun : (CacheTask.run host (.resolve fingerprint)).exec s =
      (.ok (some t), host.write (host.read s).countHit s) := by
    apply CacheTask.exec_run_of_done
    simp only [CacheTask.advanceTimes_succ, CacheTask.advance, StateT.run_bind, StateT.run_get,
      pure_bind, hlocal]
    rfl
  rw [CacheHost.resolve, Run.exec_map, hrun]
  rfl

/-- A tree found in the durable tier alone is handed out and taken over. -/
theorem exec_resolve_promoted {durable : DurableStore σ} {text : String} {s' : σ}
    (hlocal : (host.read s).lookup? fingerprint = none) (hdurable : host.durable = some durable)
    (hget : (durable.get ((host.read s).durableKey fingerprint)).exec s = (.ok (some text), s'))
    (hdecode : Selection.decode? text = some t) :
    (host.resolve fingerprint).exec s =
      (.ok ((host.read s').promote fingerprint t).1,
        host.write ((host.read s').promote fingerprint t).2 s') := by
  have hask : (CacheTask.advance host (.resolve fingerprint)).run s =
      (.reading fingerprint, s) := by
    simp only [CacheTask.advance, StateT.run_bind, StateT.run_get, pure_bind, hlocal, hdurable]
    rfl
  have hrun : (CacheTask.run host (.resolve fingerprint)).exec s =
      (.ok (some ((host.read s').promote fingerprint t).1),
        host.write ((host.read s').promote fingerprint t).2 s') := by
    apply CacheTask.exec_run_of_done
    simp only [CacheTask.advanceTimes_succ, hask,
      CacheTask.advance_reading_find hdurable hget hdecode]
    rfl
  rw [CacheHost.resolve, Run.exec_map, hrun]
  rfl

/-- State after a request was carried out alone. -/
def after (host : CacheHost σ) (s : σ) : CacheRequest → σ
  | .store fingerprint schema => ((host.store fingerprint schema).exec s).2
  | .resolve fingerprint => ((host.resolve fingerprint).exec s).2
  | .clear => (host.clear.exec s).2

def afterAll (host : CacheHost σ) (s : σ) (requests : List CacheRequest) : σ :=
  requests.foldl host.after s

theorem after_eq (host : CacheHost σ) (s : σ) (request : CacheRequest) :
    host.after s request = ((CacheTask.run host request.task).exec s).2 := by
  cases request <;> exact congrArg Prod.snd (Run.exec_map _ _ s)

/-- What every step keeps of the state, a request keeps. -/
theorem after_induction {P : σ → Prop}
    (hstep : ∀ {task s task' s'}, CacheTask.Step host task s task' s' → P s → P s') (h : P s)
    (request : CacheRequest) : P (host.after s request) := by
  obtain ⟨result, s', hexec, hafter⟩ : ∃ result s',
      (CacheTask.run host request.task).exec s = (result, s') ∧ P s' :=
    CacheTask.run_induction (P := fun _ s => P s) hstep h
  rwa [after_eq, hexec]

theorem after_store_ok (hcompile : compile schema = .ok t) (s : σ) :
    host.after s (.store fingerprint schema) =
      (host.persist fingerprint t (host.inserted fingerprint t s)).2 := by
  rw [after, exec_store_ok hcompile]

theorem after_store_error {e : Failure} (hcompile : compile schema = .error e) (s : σ) :
    host.after s (.store fingerprint schema) = s := by
  rw [after, exec_store_error hcompile]

end CacheHost

/-- A plain map from fingerprints to trees. -/
abbrev QueryMap := String → Option Selection

namespace QueryMap

def empty : QueryMap := fun _ => none

def put (m : QueryMap) (fingerprint : String) (t : Selection) : QueryMap := fun other =>
  if other = fingerprint then some t else m other

/-- What the map answers to a look-up. -/
def answer (m : QueryMap) (fingerprint : String) : Except Failure Selection :=
  match m fingerprint with
  | some t => .ok t
  | none => .error (.cacheMiss fingerprint)

/-- The map after a request: a store whose schema compiles puts its tree. -/
def after (m : QueryMap) : CacheRequest → QueryMap
  | .store fingerprint schema =>
      match compile schema with
      | .ok t => m.put fingerprint t
      | .error _ => m
  | .resolve _ | .clear => m

def afterAll (m : QueryMap) (requests : List CacheRequest) : QueryMap := requests.foldl after m

variable {m : QueryMap} {fingerprint other schema : String} {t : Selection}

@[simp] theorem put_self (m : QueryMap) (fingerprint : String) (t : Selection) :
    m.put fingerprint t fingerprint = some t :=
  if_pos rfl

theorem put_of_ne (m : QueryMap) (t : Selection) (hother : other ≠ fingerprint) :
    m.put fingerprint t other = m other :=
  if_neg hother

theorem after_store_ok (hcompile : compile schema = .ok t) :
    m.after (.store fingerprint schema) = m.put fingerprint t := by
  simp [after, hcompile]

theorem after_store_error {e : Failure} (hcompile : compile schema = .error e) :
    m.after (.store fingerprint schema) = m := by
  simp [after, hcompile]

end QueryMap

namespace CacheHost

variable {σ : Type} {host : CacheHost σ} {valid : σ → Prop} {holds : σ → String → String → Prop}
  {config : CacheConfig} {stored written : QueryMap} {s : σ} {fingerprint : String} {t : Selection}

/-- Trees whose write to the durable tier last went through, after a request
that is carried out alone. -/
def writtenAfter (host : CacheHost σ) (s : σ) (written : QueryMap) : CacheRequest → QueryMap
  | .store fingerprint schema =>
      match compile schema with
      | .ok t =>
          if (host.persist fingerprint t (host.inserted fingerprint t s)).1
          then written.put fingerprint t else written
      | .error _ => written
  | .resolve _ | .clear => written

def writtenAll (host : CacheHost σ) (s : σ) (written : QueryMap) : List CacheRequest → QueryMap
  | [] => written
  | request :: rest =>
      host.writtenAll (host.after s request) (host.writtenAfter s written request) rest

/-- The local tier may hold the tree last stored, or what the tree last written
reads back as; the durable one holds what was last written. -/
def Ledger.ofMaps (stored written : QueryMap) : Ledger where
  tree fingerprint t := stored fingerprint = some t ∨
    ∃ u, written fingerprint = some u ∧ Selection.decode? u.encode = some t
  text fingerprint text := ∃ u, written fingerprint = some u ∧ text = u.encode
  tree_of_text := by
    rintro fingerprint _ t ⟨u, hu, rfl⟩ hdecode
    exact .inr ⟨u, hu, hdecode⟩

section Persist

variable {stays : Bool} {s' : σ}

theorem Lawful.valid_inserted (h : host.Lawful valid) (hs : valid s) (fingerprint : String)
    (t : Selection) : valid (host.inserted fingerprint t s) :=
  h.valid_write hs (Cache.config_insert _ _ _)

theorem Lawful.read_inserted (h : host.Lawful valid) (hs : valid s) (fingerprint : String)
    (t : Selection) :
    host.read (host.inserted fingerprint t s) = (host.read s).insert fingerprint t :=
  h.read_write hs (Cache.config_insert _ _ _)

theorem Lawful.valid_persist (h : host.Lawful valid) (hs : valid s)
    (hpersist : host.persist fingerprint t s = (stays, s')) : valid s' := by
  obtain rfl : (host.persist fingerprint t s).2 = s' := congrArg Prod.snd hpersist
  unfold persist
  split
  next => exact hs
  next hdurable => exact h.valid_set _ _ hs hdurable

theorem Lawful.read_persist (h : host.Lawful valid) (hs : valid s)
    (hpersist : host.persist fingerprint t s = (stays, s')) : host.read s' = host.read s := by
  obtain rfl : (host.persist fingerprint t s).2 = s' := congrArg Prod.snd hpersist
  unfold persist
  split
  next => rfl
  next hdurable => exact h.read_set _ _ hs hdurable

/-- What is held after a write is what was written, or was held before and not
replaced. -/
theorem Fallible.holds_persist (h : host.Fallible valid holds) (hs : valid s)
    (hpersist : host.persist fingerprint t s = (stays, s')) {key text : String}
    (hholds : holds s' key text) :
    (stays = true ∧ key = (host.read s).durableKey fingerprint ∧ text = t.encode) ∨
      ((stays = true → key ≠ (host.read s).durableKey fingerprint) ∧ holds s key text) := by
  unfold persist at hpersist
  cases hdurable : host.durable with
  | none =>
      simp only [hdurable, Prod.mk.injEq] at hpersist
      obtain ⟨rfl, rfl⟩ := hpersist
      exact .inr ⟨by simp, hholds⟩
  | some durable =>
      simp only [hdurable, Prod.mk.injEq] at hpersist
      obtain ⟨hstays, rfl⟩ := hpersist
      by_cases hkey : key = (host.read s).durableKey fingerprint
      · subst hkey
        cases hset : ((durable.set ((host.read s).durableKey fingerprint) t.encode
            (host.read s).config.ttlSecs).exec s).1 with
        | ok =>
            rw [hset] at hstays
            exact .inl ⟨hstays.symm, rfl, h.set_ok hs hdurable hset hholds⟩
        | error e =>
            rw [hset] at hstays
            exact .inr ⟨fun htrue => absurd (hstays.trans htrue) Bool.false_ne_true,
              h.set_error hs hdurable hset hholds⟩
      · rcases h.holds_set hs hdurable hholds with hholds | ⟨hsame, -⟩
        · exact .inr ⟨fun _ => hkey, hholds⟩
        · exact absurd hsame hkey

end Persist

namespace Sound

/-- A request that stores nothing new keeps both tiers sound, and is answered
with what they may hold. -/
theorem run {ledger : Ledger} {request : CacheRequest} (h : host.Honest valid holds)
    (hs : host.Sound valid holds config ledger s) (hcovered : request.Covered ledger) :
    ∃ result s', (CacheTask.run host request.task).exec s = (result, s') ∧
      request.Answers ledger.tree result ∧ host.Sound valid holds config ledger s' := by
  obtain ⟨result, s', hexec, hserves, hsound⟩ := CacheTask.run_induction
    (P := fun task s => CacheTask.Serves host ledger request task ∧
      host.Sound valid holds config ledger s)
    (fun hstep htask => htask.1.step h hstep htask.2) ⟨.of_request hcovered, hs⟩
  cases hserves with
  | done hanswers => exact ⟨result, s', hexec, hanswers, hsound⟩

/-- A look-up finds a tree that may stand in the tiers, or none. -/
theorem resolve {ledger : Ledger} (h : host.Honest valid holds)
    (hs : host.Sound valid holds config ledger s) (fingerprint : String) :
    ((host.resolve fingerprint).exec s).1 = .error (.cacheMiss fingerprint) ∨
      ∃ t, ((host.resolve fingerprint).exec s).1 = .ok t ∧ ledger.tree fingerprint t := by
  have hcovered : (CacheRequest.resolve fingerprint).Covered ledger := trivial
  obtain ⟨result, s', hexec, hanswers, -⟩ := hs.run h hcovered
  change (CacheTask.run host (.resolve fingerprint)).exec s = _ at hexec
  rw [CacheHost.resolve, Run.exec_map, hexec]
  cases hanswers with
  | found ht => exact .inr ⟨_, rfl, ht⟩
  | missed => exact .inl rfl

theorem after {ledger : Ledger} {request : CacheRequest} (h : host.Honest valid holds)
    (hs : host.Sound valid holds config ledger s) (hcovered : request.Covered ledger) :
    host.Sound valid holds config ledger (host.after s request) := by
  obtain ⟨result, s', hexec, -, hsound⟩ := hs.run h hcovered
  rwa [after_eq, hexec]

theorem durableKey_inserted {ledger : Ledger} (h : host.Lawful valid)
    (hs : host.Sound valid holds config ledger s) (fingerprint other : String) (t : Selection) :
    (host.read (host.inserted fingerprint t s)).durableKey other = config.keyPrefix ++ other := by
  rw [h.read_inserted hs.valid, Cache.durableKey, Cache.config_insert, hs.within.config_eq]

/-- Storing a tree puts it among the stored ones, and among the written ones if
the durable write goes through. -/
theorem persist (h : host.Fallible valid holds)
    (hs : host.Sound valid holds config (.ofMaps stored written) s) {stays : Bool} {s' : σ}
    (hpersist : host.persist fingerprint t (host.inserted fingerprint t s) = (stays, s')) :
    host.Sound valid holds config
      (.ofMaps (stored.put fingerprint t) (if stays then written.put fingerprint t else written))
      s' := by
  have hvalid : valid (host.inserted fingerprint t s) := h.valid_inserted hs.valid fingerprint t
  have hothers {other : String} (hother : other ≠ fingerprint) :
      (if stays then written.put fingerprint t else written) other = written other := by
    cases stays
    · rfl
    · exact written.put_of_ne t hother
  constructor
  · exact h.valid_persist hvalid hpersist
  · rw [h.read_persist hvalid hpersist, h.read_inserted hs.valid]
    refine hs.within.insert (.inl (stored.put_self _ _)) fun other u hother hu => ?_
    change stored.put fingerprint t other = some u ∨ _
    rwa [stored.put_of_ne t hother, hothers hother]
  · intro other text hholds
    rcases h.holds_persist hvalid hpersist hholds with ⟨rfl, hsame, htext⟩ | ⟨hfresh, hholds⟩
    · rw [hs.durableKey_inserted h.toLawful, String.append_right_inj] at hsame
      exact ⟨t, by simp [hsame], htext⟩
    · have hold := h.holds_write hs.valid (Cache.config_insert _ _ _) hholds
      obtain ⟨u, hu, htext⟩ := hs.text other text hold
      refine ⟨u, ?_, htext⟩
      cases stays with
      | false => exact hu
      | true =>
          have hother : other ≠ fingerprint := by
            rintro rfl
            exact hfresh rfl (hs.durableKey_inserted h.toLawful _ _ _).symm
          rwa [hothers hother]

/-- One request keeps the tiers to what the maps tell. -/
theorem after_maps (h : host.Fallible valid holds)
    (hs : host.Sound valid holds config (.ofMaps stored written) s) (request : CacheRequest) :
    host.Sound valid holds config
      (.ofMaps (stored.after request) (host.writtenAfter s written request))
      (host.after s request) := by
  cases request with
  | resolve | clear => exact hs.after h.toHonest trivial
  | store fingerprint schema =>
      cases hcompile : compile schema with
      | error e =>
          rw [QueryMap.after_store_error hcompile, after_store_error hcompile]
          simpa only [writtenAfter, hcompile] using hs
      | ok t =>
          obtain ⟨stays, s', hpersist⟩ : ∃ stays s',
              host.persist fingerprint t (host.inserted fingerprint t s) = (stays, s') :=
            ⟨_, _, rfl⟩
          rw [QueryMap.after_store_ok hcompile, after_store_ok hcompile]
          simpa only [writtenAfter, hcompile, hpersist] using hs.persist h hpersist

/-- So do any number of requests. -/
theorem afterAll_maps (h : host.Fallible valid holds)
    (hs : host.Sound valid holds config (.ofMaps stored written) s)
    (requests : List CacheRequest) :
    host.Sound valid holds config
      (.ofMaps (stored.afterAll requests) (host.writtenAll s written requests))
      (host.afterAll s requests) := by
  induction requests generalizing s stored written with
  | nil => exact hs
  | cons request rest ih => exact ih (hs.after_maps h request)

end Sound

end CacheHost

end FieldQuery
