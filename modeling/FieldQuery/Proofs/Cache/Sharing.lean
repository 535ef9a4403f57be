import FieldQuery.Fingerprint
import FieldQuery.Proofs.Cache.Sequential

/-!
Several caches over one durable tier. A step of one cache changes nothing that
another one can see unless their keys meet, and steps of one cache from states
that look alike to it end alike. Whole requests do so, too, and any number of
them.
-/

namespace FieldQuery

/-! Fingerprints of requests and tasks. -/

/-- The fingerprint that a request is about. -/
def CacheRequest.fingerprint? : CacheRequest → Option String
  | .store fingerprint _ | .resolve fingerprint => some fingerprint
  | .clear => none

/-- The fingerprint, if any, is that of a text. -/
def CacheRequest.IsDerived (request : CacheRequest) : Prop :=
  ∀ found ∈ request.fingerprint?, ∃ text, found = fingerprint text

namespace CacheTask

def fingerprint? : CacheTask → Option String
  | .resolve fingerprint | .reading fingerprint | .promoting fingerprint _
  | .store fingerprint _ | .writing fingerprint _ => some fingerprint
  | .clear | .done _ => none

def IsDerived (task : CacheTask) : Prop :=
  ∀ found ∈ task.fingerprint?, ∃ text, found = fingerprint text

variable {σ : Type} {host : CacheHost σ} {task task' : CacheTask} {s s' : σ}

theorem isDerived_task {request : CacheRequest} (h : request.IsDerived) :
    request.task.IsDerived := by
  cases request <;> exact h

/-- A task stays with its fingerprint until it is done. -/
theorem IsDerived.step (h : task.IsDerived) (hstep : Step host task s task' s') :
    task'.IsDerived := by
  cases hstep with
  | ask | find | insert | stay => exact h
  | hit | absent | lose | unread | promote | refuse | keep | write | unwritten | wipe =>
      intro found hfound
      cases hfound

end CacheTask

/-- The result of a task that is done. -/
def CacheTask.answer : CacheTask → Except Failure (Option Selection)
  | .done result => result
  | _ => .ok none

theorem CacheTask.exec_run {σ : Type} (host : CacheHost σ) (task : CacheTask) (s : σ) :
    (CacheTask.run host task).exec s =
      (((advanceTimes host 3 task).run s).1.answer, ((advanceTimes host 3 task).run s).2) := by
  obtain ⟨task', s', hrun⟩ : ∃ task' s', (advanceTimes host 3 task).run s = (task', s') :=
    ⟨_, _, rfl⟩
  simp only [CacheTask.run, Run.exec, ExceptT.run_mk, StateT.run_bind, hrun]
  cases task' <;> rfl

/-! One tier for several caches. -/

namespace CacheHost

variable {σ ι ε : Type}

/-- Hosts of several caches over one durable tier with an entry under every key.
A call for a key is answered by its entry and changes no other one, and leaves
all caches alone, as a cache does with the others and the tier. -/
structure Sharing (hosts : ι → CacheHost σ) (durable : DurableStore σ) (prefixes : ι → String)
    (entry : σ → String → ε) (valid : σ → Prop) : Prop where
  durable_eq (i : ι) : (hosts i).durable = some durable
  keyPrefix_eq (i : ι) {s : σ} : valid s → ((hosts i).read s).config.keyPrefix = prefixes i
  valid_write {i : ι} {s : σ} {c : Cache} : valid s → c.config = ((hosts i).read s).config →
    valid ((hosts i).write c s)
  read_write {i : ι} {s : σ} {c : Cache} : valid s → c.config = ((hosts i).read s).config →
    (hosts i).read ((hosts i).write c s) = c
  read_write_of_ne {i j : ι} {s : σ} {c : Cache} : j ≠ i → valid s →
    c.config = ((hosts i).read s).config →
      (hosts j).read ((hosts i).write c s) = (hosts j).read s
  entry_write {i : ι} {s : σ} {c : Cache} (key : String) : valid s →
    c.config = ((hosts i).read s).config → entry ((hosts i).write c s) key = entry s key
  valid_get {s : σ} (key : String) : valid s → valid ((durable.get key).exec s).2
  read_get (i : ι) {s : σ} (key : String) : valid s →
    (hosts i).read ((durable.get key).exec s).2 = (hosts i).read s
  get_eq {s t : σ} {key : String} : valid s → valid t → entry s key = entry t key →
    ((durable.get key).exec s).1 = ((durable.get key).exec t).1
  entry_get {s t : σ} {key : String} : valid s → valid t → entry s key = entry t key →
    entry ((durable.get key).exec s).2 key = entry ((durable.get key).exec t).2 key
  entry_get_of_ne {s : σ} {key other : String} : valid s → other ≠ key →
    entry ((durable.get key).exec s).2 other = entry s other
  valid_set {s : σ} (key text : String) (ttlSecs : Nat) : valid s →
    valid ((durable.set key text ttlSecs).exec s).2
  read_set (i : ι) {s : σ} (key text : String) (ttlSecs : Nat) : valid s →
    (hosts i).read ((durable.set key text ttlSecs).exec s).2 = (hosts i).read s
  entry_set {s t : σ} {key : String} (text : String) (ttlSecs : Nat) : valid s → valid t →
    entry s key = entry t key →
      entry ((durable.set key text ttlSecs).exec s).2 key =
        entry ((durable.set key text ttlSecs).exec t).2 key
  entry_set_of_ne {s : σ} {key other : String} (text : String) (ttlSecs : Nat) : valid s →
    other ≠ key → entry ((durable.set key text ttlSecs).exec s).2 other = entry s other

/-- State after requests to several caches were carried out one by one. -/
def afterEach (hosts : ι → CacheHost σ) (s : σ) (requests : List (ι × CacheRequest)) : σ :=
  requests.foldl (fun s sent => (hosts sent.1).after s sent.2) s

/-- What is sent to one of several. -/
def sentTo {α : Type} [DecidableEq ι] (i : ι) (sent : List (ι × α)) : List α :=
  (sent.filter (·.1 = i)).map Prod.snd

section SentTo

variable {α : Type} [DecidableEq ι] {i j : ι} {a : α} {rest : List (ι × α)}

theorem sentTo_cons_self : sentTo i ((i, a) :: rest) = a :: sentTo i rest := by
  simp [sentTo]

theorem sentTo_cons_of_ne (hji : j ≠ i) : sentTo i ((j, a) :: rest) = sentTo i rest := by
  simp [sentTo, hji]

end SentTo

/-- The states look alike to a cache: it is the same in both, and so are the
entries under its keys. -/
structure Alike (host : CacheHost σ) (keyPrefix : String) (entry : σ → String → ε)
    (valid : σ → Prop) (s t : σ) : Prop where
  left : valid s
  right : valid t
  read_eq : host.read s = host.read t
  entry_eq : ∀ text, entry s (keyPrefix ++ fingerprint text) =
    entry t (keyPrefix ++ fingerprint text)

section Steps

variable {hosts : ι → CacheHost σ} {durable : DurableStore σ} {prefixes : ι → String}
  {entry : σ → String → ε} {valid : σ → Prop} {i j : ι} {s s' t t' : σ}
  {task task' task'' : CacheTask}

theorem Alike.refl {host : CacheHost σ} {keyPrefix : String} (hs : valid s) :
    host.Alike keyPrefix entry valid s s :=
  ⟨hs, hs, rfl, fun _ => rfl⟩

theorem Alike.symm {host : CacheHost σ} {keyPrefix : String}
    (h : host.Alike keyPrefix entry valid s t) : host.Alike keyPrefix entry valid t s :=
  ⟨h.right, h.left, h.read_eq.symm, fun text => (h.entry_eq text).symm⟩

theorem Alike.trans {host : CacheHost σ} {keyPrefix : String} {u : σ}
    (hst : host.Alike keyPrefix entry valid s t) (htu : host.Alike keyPrefix entry valid t u) :
    host.Alike keyPrefix entry valid s u :=
  ⟨hst.left, htu.right, hst.read_eq.trans htu.read_eq,
    fun text => (hst.entry_eq text).trans (htu.entry_eq text)⟩

namespace Sharing

variable (h : Sharing hosts durable prefixes entry valid)
include h

theorem durableKey_eq (i : ι) (hs : valid s) (fingerprint : String) :
    ((hosts i).read s).durableKey fingerprint = prefixes i ++ fingerprint := by
  rw [Cache.durableKey, h.keyPrefix_eq i hs]

theorem durable_ne_none (i : ι) : (hosts i).durable ≠ none := by
  simp [h.durable_eq]

/-! What the others do. -/

theorem alike_write (hij : i ≠ j) (hs : valid s) {c : Cache}
    (hc : c.config = ((hosts j).read s).config) :
    (hosts i).Alike (prefixes i) entry valid s ((hosts j).write c s) :=
  ⟨hs, h.valid_write hs hc, (h.read_write_of_ne hij hs hc).symm,
    fun _ => (h.entry_write _ hs hc).symm⟩

theorem alike_get (hs : valid s) {key : String}
    (hkey : ∀ text, prefixes i ++ fingerprint text ≠ key) :
    (hosts i).Alike (prefixes i) entry valid s ((durable.get key).exec s).2 :=
  ⟨hs, h.valid_get key hs, (h.read_get i key hs).symm,
    fun text => (h.entry_get_of_ne hs (hkey text)).symm⟩

theorem alike_set (hs : valid s) {key : String} (text : String) (ttlSecs : Nat)
    (hkey : ∀ text, prefixes i ++ fingerprint text ≠ key) :
    (hosts i).Alike (prefixes i) entry valid s ((durable.set key text ttlSecs).exec s).2 :=
  ⟨hs, h.valid_set key text ttlSecs hs, (h.read_set i key text ttlSecs hs).symm,
    fun other => (h.entry_set_of_ne text ttlSecs hs (hkey other)).symm⟩

/-- No step of another cache shows, if the keys do not meet. -/
theorem alike_of_step (hij : i ≠ j)
    (hkeys : ∀ a b, prefixes i ++ fingerprint a ≠ prefixes j ++ fingerprint b) (hs : valid s)
    (htask : task.IsDerived) (hstep : CacheTask.Step (hosts j) task s task' s') :
    (hosts i).Alike (prefixes i) entry valid s s' := by
  have hkey {found : String} (hfound : found ∈ task.fingerprint?) (text : String) :
      prefixes i ++ fingerprint text ≠ ((hosts j).read s).durableKey found := by
    obtain ⟨other, rfl⟩ := htask found hfound
    rw [h.durableKey_eq j hs]
    exact hkeys text other
  cases hstep with
  | hit | absent | unread | wipe => exact h.alike_write hij hs rfl
  | promote => exact h.alike_write hij hs (Cache.config_promote _ _ _)
  | insert | keep => exact h.alike_write hij hs (Cache.config_insert _ _ _)
  | ask | refuse | unwritten | stay => exact Alike.refl hs
  | find hdurable hget =>
      obtain rfl := Option.some.inj ((h.durable_eq j).symm.trans hdurable)
      obtain rfl := congrArg Prod.snd hget
      exact h.alike_get hs (hkey rfl)
  | lose hdurable hget =>
      obtain rfl := Option.some.inj ((h.durable_eq j).symm.trans hdurable)
      obtain rfl := congrArg Prod.snd hget
      exact (h.alike_get hs (hkey rfl)).trans (h.alike_write hij (h.valid_get _ hs) rfl)
  | write hdurable =>
      obtain rfl := Option.some.inj ((h.durable_eq j).symm.trans hdurable)
      exact h.alike_set hs _ _ (hkey rfl)

/-! What a cache does itself. -/

theorem write_alike (hst : (hosts i).Alike (prefixes i) entry valid s t) {c : Cache}
    (hc : c.config = ((hosts i).read s).config) :
    (hosts i).Alike (prefixes i) entry valid ((hosts i).write c s) ((hosts i).write c t) := by
  have hc' : c.config = ((hosts i).read t).config := hst.read_eq ▸ hc
  refine ⟨h.valid_write hst.left hc, h.valid_write hst.right hc', ?_, fun text => ?_⟩
  · rw [h.read_write hst.left hc, h.read_write hst.right hc']
  · rw [h.entry_write _ hst.left hc, h.entry_write _ hst.right hc', hst.entry_eq]

theorem get_alike (hst : (hosts i).Alike (prefixes i) entry valid s t) (text : String) :
    ((durable.get (prefixes i ++ fingerprint text)).exec s).1 =
        ((durable.get (prefixes i ++ fingerprint text)).exec t).1 ∧
      (hosts i).Alike (prefixes i) entry valid
        ((durable.get (prefixes i ++ fingerprint text)).exec s).2
        ((durable.get (prefixes i ++ fingerprint text)).exec t).2 := by
  refine ⟨h.get_eq hst.left hst.right (hst.entry_eq text), h.valid_get _ hst.left,
    h.valid_get _ hst.right, ?_, fun other => ?_⟩
  · rw [h.read_get i _ hst.left, h.read_get i _ hst.right, hst.read_eq]
  · by_cases hother : prefixes i ++ fingerprint other = prefixes i ++ fingerprint text
    · rw [hother]
      exact h.entry_get hst.left hst.right (hst.entry_eq text)
    · rw [h.entry_get_of_ne hst.left hother, h.entry_get_of_ne hst.right hother, hst.entry_eq]

theorem set_alike (hst : (hosts i).Alike (prefixes i) entry valid s t) (text content : String)
    (ttlSecs : Nat) :
    (hosts i).Alike (prefixes i) entry valid
      ((durable.set (prefixes i ++ fingerprint text) content ttlSecs).exec s).2
      ((durable.set (prefixes i ++ fingerprint text) content ttlSecs).exec t).2 := by
  refine ⟨h.valid_set _ _ _ hst.left, h.valid_set _ _ _ hst.right, ?_, fun other => ?_⟩
  · rw [h.read_set i _ _ _ hst.left, h.read_set i _ _ _ hst.right, hst.read_eq]
  · by_cases hother : prefixes i ++ fingerprint other = prefixes i ++ fingerprint text
    · rw [hother]
      exact h.entry_set content ttlSecs hst.left hst.right (hst.entry_eq text)
    · rw [h.entry_set_of_ne _ _ hst.left hother, h.entry_set_of_ne _ _ hst.right hother,
        hst.entry_eq]

/-- Two reads of the entry of a fingerprint answer alike and end alike. -/
theorem read_alike (hst : (hosts i).Alike (prefixes i) entry valid s t) {found : String}
    (hfound : ∃ text, found = fingerprint text) {asked asked' : DurableStore σ}
    (hdurable : (hosts i).durable = some asked) (hdurable' : (hosts i).durable = some asked')
    {result result' : Except Failure (Option String)}
    (hget : (asked.get (((hosts i).read s).durableKey found)).exec s = (result, s'))
    (hget' : (asked'.get (((hosts i).read t).durableKey found)).exec t = (result', t')) :
    result = result' ∧ (hosts i).Alike (prefixes i) entry valid s' t' := by
  obtain ⟨text, rfl⟩ := hfound
  obtain rfl := Option.some.inj ((h.durable_eq i).symm.trans hdurable)
  obtain rfl := Option.some.inj ((h.durable_eq i).symm.trans hdurable')
  rw [h.durableKey_eq i hst.left] at hget
  rw [h.durableKey_eq i hst.right] at hget'
  have halike := h.get_alike hst text
  rwa [hget, hget'] at halike

/-- A step of a look-up depends on the local tier alone. -/
theorem resolve_alike (hst : (hosts i).Alike (prefixes i) entry valid s t) {found : String}
    (hs : CacheTask.Step (hosts i) (.resolve found) s task' s')
    (ht : CacheTask.Step (hosts i) (.resolve found) t task'' t') :
    task' = task'' ∧ (hosts i).Alike (prefixes i) entry valid s' t' := by
  have hread := hst.read_eq
  cases hs with
  | hit hlocal =>
      rw [hread] at hlocal
      cases ht with
      | hit hlocal' =>
          obtain rfl := Option.some.inj (hlocal.symm.trans hlocal')
          exact ⟨rfl, hread ▸ h.write_alike hst rfl⟩
      | ask hlocal' | absent hlocal' => simp [hlocal] at hlocal'
  | ask hlocal =>
      rw [hread] at hlocal
      cases ht with
      | hit hlocal' => simp [hlocal] at hlocal'
      | ask => exact ⟨rfl, hst⟩
      | absent _ hnone => exact absurd hnone (h.durable_ne_none i)
  | absent _ hnone => exact absurd hnone (h.durable_ne_none i)

/-- A read of the durable tier depends on the entry of its key alone. -/
theorem reading_alike (hst : (hosts i).Alike (prefixes i) entry valid s t) {found : String}
    (hfound : ∃ text, found = fingerprint text)
    (hs : CacheTask.Step (hosts i) (.reading found) s task' s')
    (ht : CacheTask.Step (hosts i) (.reading found) t task'' t') :
    task' = task'' ∧ (hosts i).Alike (prefixes i) entry valid s' t' := by
  cases hs with
  | find hdurable hget hdecode =>
      cases ht with
      | find hdurable' hget' hdecode' =>
          obtain ⟨hsame, halike⟩ := h.read_alike hst hfound hdurable hdurable' hget hget'
          cases hsame
          cases hdecode.symm.trans hdecode'
          exact ⟨rfl, halike⟩
      | lose hdurable' hget' hresult =>
          obtain ⟨rfl, -⟩ := h.read_alike hst hfound hdurable hdurable' hget hget'
          exact absurd hdecode (hresult _ _ rfl)
      | unread hnone => exact absurd hnone (h.durable_ne_none i)
  | lose hdurable hget hresult =>
      cases ht with
      | find hdurable' hget' hdecode' =>
          obtain ⟨rfl, -⟩ := h.read_alike hst hfound hdurable hdurable' hget hget'
          exact absurd hdecode' (hresult _ _ rfl)
      | lose hdurable' hget' =>
          obtain ⟨-, halike⟩ := h.read_alike hst hfound hdurable hdurable' hget hget'
          exact ⟨rfl, halike.read_eq ▸ h.write_alike halike rfl⟩
      | unread hnone => exact absurd hnone (h.durable_ne_none i)
  | unread hnone => exact absurd hnone (h.durable_ne_none i)

theorem store_alike (hst : (hosts i).Alike (prefixes i) entry valid s t) {found schema : String}
    (hs : CacheTask.Step (hosts i) (.store found schema) s task' s')
    (ht : CacheTask.Step (hosts i) (.store found schema) t task'' t') :
    task' = task'' ∧ (hosts i).Alike (prefixes i) entry valid s' t' := by
  cases hs with
  | refuse hcompile =>
      cases ht with
      | refuse hcompile' =>
          cases hcompile.symm.trans hcompile'
          exact ⟨rfl, hst⟩
      | insert hcompile' | keep hcompile' => cases hcompile.symm.trans hcompile'
  | insert hcompile =>
      cases ht with
      | refuse hcompile' => cases hcompile.symm.trans hcompile'
      | insert hcompile' =>
          cases hcompile.symm.trans hcompile'
          rw [← hst.read_eq]
          exact ⟨rfl, h.write_alike hst (Cache.config_insert _ _ _)⟩
      | keep _ hnone => exact absurd hnone (h.durable_ne_none i)
  | keep _ hnone => exact absurd hnone (h.durable_ne_none i)

theorem writing_alike (hst : (hosts i).Alike (prefixes i) entry valid s t) {found : String}
    (hfound : ∃ text, found = fingerprint text) {tree : Selection}
    (hs : CacheTask.Step (hosts i) (.writing found tree) s task' s')
    (ht : CacheTask.Step (hosts i) (.writing found tree) t task'' t') :
    task' = task'' ∧ (hosts i).Alike (prefixes i) entry valid s' t' := by
  obtain ⟨text, rfl⟩ := hfound
  cases hs with
  | write hdurable =>
      cases ht with
      | write hdurable' =>
          obtain rfl := Option.some.inj ((h.durable_eq i).symm.trans hdurable)
          obtain rfl := Option.some.inj ((h.durable_eq i).symm.trans hdurable')
          rw [← hst.read_eq, h.durableKey_eq i hst.left]
          exact ⟨rfl, h.set_alike hst text _ _⟩
      | unwritten hnone => exact absurd hnone (h.durable_ne_none i)
  | unwritten hnone => exact absurd hnone (h.durable_ne_none i)

/-- Steps of one task from states that look alike end alike. -/
theorem step_alike (hst : (hosts i).Alike (prefixes i) entry valid s t) (htask : task.IsDerived)
    (hs : CacheTask.Step (hosts i) task s task' s')
    (ht : CacheTask.Step (hosts i) task t task'' t') :
    task' = task'' ∧ (hosts i).Alike (prefixes i) entry valid s' t' := by
  cases task with
  | resolve => exact h.resolve_alike hst hs ht
  | reading => exact h.reading_alike hst (htask _ rfl) hs ht
  | promoting =>
      cases hs
      cases ht
      rw [← hst.read_eq]
      exact ⟨rfl, h.write_alike hst (Cache.config_promote _ _ _)⟩
  | store => exact h.store_alike hst hs ht
  | writing => exact h.writing_alike hst (htask _ rfl) hs ht
  | clear =>
      cases hs
      cases ht
      rw [← hst.read_eq]
      exact ⟨rfl, h.write_alike hst rfl⟩
  | done =>
      cases hs
      cases ht
      exact ⟨rfl, hst⟩

/-! Whole requests. -/

theorem advanceTimes_alike (hst : (hosts i).Alike (prefixes i) entry valid s t)
    (htask : task.IsDerived) (n : Nat) :
    ((task.advanceTimes (hosts i) n).run s).1 = ((task.advanceTimes (hosts i) n).run t).1 ∧
      (hosts i).Alike (prefixes i) entry valid ((task.advanceTimes (hosts i) n).run s).2
        ((task.advanceTimes (hosts i) n).run t).2 := by
  induction n generalizing task s t with
  | zero => exact ⟨rfl, hst⟩
  | succ n ih =>
      have hs := CacheTask.advance_step (hosts i) task s
      obtain ⟨hsame, halike⟩ :=
        h.step_alike hst htask hs (CacheTask.advance_step (hosts i) task t)
      rw [CacheTask.advanceTimes_succ, CacheTask.advanceTimes_succ, ← hsame]
      exact ih halike (htask.step hs)

/-- A cache answers a request alike in states that look alike to it. -/
theorem run_alike (hst : (hosts i).Alike (prefixes i) entry valid s t) (htask : task.IsDerived) :
    ((CacheTask.run (hosts i) task).exec s).1 = ((CacheTask.run (hosts i) task).exec t).1 ∧
      (hosts i).Alike (prefixes i) entry valid ((CacheTask.run (hosts i) task).exec s).2
        ((CacheTask.run (hosts i) task).exec t).2 := by
  obtain ⟨hsame, halike⟩ := h.advanceTimes_alike hst htask 3
  rw [CacheTask.exec_run, CacheTask.exec_run]
  exact ⟨congrArg CacheTask.answer hsame, halike⟩

theorem alike_after (hij : i ≠ j)
    (hkeys : ∀ a b, prefixes i ++ fingerprint a ≠ prefixes j ++ fingerprint b) (hs : valid s)
    {request : CacheRequest} (hrequest : request.IsDerived) :
    (hosts i).Alike (prefixes i) entry valid s ((hosts j).after s request) := by
  obtain ⟨result, s', hexec, -, halike⟩ := CacheTask.run_induction
    (P := fun task s' => task.IsDerived ∧ (hosts i).Alike (prefixes i) entry valid s s')
    (fun hstep htask => ⟨htask.1.step hstep,
      htask.2.trans (h.alike_of_step hij hkeys htask.2.right htask.1 hstep)⟩)
    ⟨CacheTask.isDerived_task hrequest, Alike.refl hs⟩
  rwa [after_eq, hexec]

theorem after_alike (hst : (hosts i).Alike (prefixes i) entry valid s t) {request : CacheRequest}
    (hrequest : request.IsDerived) :
    (hosts i).Alike (prefixes i) entry valid ((hosts i).after s request)
      ((hosts i).after t request) := by
  rw [after_eq, after_eq]
  exact (h.run_alike hst (CacheTask.isDerived_task hrequest)).2

/-- After requests to all caches, the state looks to one of them as it would
after the requests to itself. -/
theorem afterEach_alike [DecidableEq ι]
    (hkeys : ∀ j, i ≠ j → ∀ a b, prefixes i ++ fingerprint a ≠ prefixes j ++ fingerprint b)
    {requests : List (ι × CacheRequest)} (hrequests : ∀ sent ∈ requests, sent.2.IsDerived)
    (hst : (hosts i).Alike (prefixes i) entry valid s t) :
    (hosts i).Alike (prefixes i) entry valid (afterEach hosts s requests)
      ((hosts i).afterAll t (sentTo i requests)) := by
  induction requests generalizing s t with
  | nil => exact hst
  | cons sent rest ih =>
      obtain ⟨j, request⟩ := sent
      have hrequest : request.IsDerived := hrequests _ (.head _)
      have hrest : ∀ sent ∈ rest, sent.2.IsDerived := fun sent hsent =>
        hrequests sent (.tail _ hsent)
      by_cases hij : i = j
      · subst hij
        rw [sentTo_cons_self]
        exact ih hrest (h.after_alike hst hrequest)
      · rw [sentTo_cons_of_ne (Ne.symm hij)]
        exact ih hrest ((h.alike_after hij (hkeys j hij) hst.left hrequest).symm.trans hst)

end Sharing

end Steps

end CacheHost

end FieldQuery
