import FieldQuery.Proofs.Cache.Tiers

/-!
Single steps of cache tasks. The relation `Step` says all that a step can do,
and facts about steps are read off its cases: tasks go on serving the request
that they were started for, and the trees on their way are such as may stand in
the tiers.
-/

namespace FieldQuery

/-- What a cache can be asked for. -/
inductive CacheRequest where
  | store (fingerprint schema : String)
  | resolve (fingerprint : String)
  | clear
deriving DecidableEq

namespace CacheRequest

/-- The task that a request starts. -/
def task : CacheRequest → CacheTask
  | .store fingerprint schema => .store fingerprint schema
  | .resolve fingerprint => .resolve fingerprint
  | .clear => .clear

/-- Answers that a request may get: a store answers with its own tree or with
the failure of its schema, a look-up with a known tree or as missing. -/
inductive Answers (known : String → Selection → Prop) :
    CacheRequest → Except Failure (Option Selection) → Prop
  | stored {fingerprint schema : String} {t : Selection} (hcompile : compile schema = .ok t)
      (ht : known fingerprint t) : Answers known (.store fingerprint schema) (.ok (some t))
  | refused {fingerprint schema : String} {e : Failure} (hcompile : compile schema = .error e) :
      Answers known (.store fingerprint schema) (.error e)
  | found {fingerprint : String} {t : Selection} (ht : known fingerprint t) :
      Answers known (.resolve fingerprint) (.ok (some t))
  | missed {fingerprint : String} :
      Answers known (.resolve fingerprint) (.error (.cacheMiss fingerprint))
  | cleared : Answers known .clear (.ok none)

/-- The tree that the request would store may stand in both tiers. -/
def Covered (ledger : CacheHost.Ledger) : CacheRequest → Prop
  | .store fingerprint schema => ∀ t, compile schema = .ok t → ledger.Covers fingerprint t
  | _ => True

end CacheRequest

theorem Cache.config_promote (c : Cache) (fingerprint : String) (t : Selection) :
    (c.promote fingerprint t).2.config = c.config := by
  unfold Cache.promote
  split
  · rfl
  · exact c.config_insert fingerprint t

namespace CacheTask

variable {σ : Type}

/-- A task in a state takes one step. -/
inductive Step (host : CacheHost σ) : CacheTask → σ → CacheTask → σ → Prop
  | hit {fingerprint : String} {t : Selection} {s : σ}
      (hlocal : (host.read s).lookup? fingerprint = some t) :
      Step host (.resolve fingerprint) s (.done (.ok (some t)))
        (host.write (host.read s).countHit s)
  | ask {fingerprint : String} {durable : DurableStore σ} {s : σ}
      (hlocal : (host.read s).lookup? fingerprint = none)
      (hdurable : host.durable = some durable) :
      Step host (.resolve fingerprint) s (.reading fingerprint) s
  | absent {fingerprint : String} {s : σ} (hlocal : (host.read s).lookup? fingerprint = none)
      (hdurable : host.durable = none) :
      Step host (.resolve fingerprint) s (.done (.error (.cacheMiss fingerprint)))
        (host.write (host.read s).countMiss s)
  | find {fingerprint text : String} {t : Selection} {durable : DurableStore σ} {s s' : σ}
      (hdurable : host.durable = some durable)
      (hget : (durable.get ((host.read s).durableKey fingerprint)).exec s =
        (.ok (some text), s'))
      (hdecode : Selection.decode? text = some t) :
      Step host (.reading fingerprint) s (.promoting fingerprint t) s'
  | lose {fingerprint : String} {durable : DurableStore σ} {s s' : σ}
      {result : Except Failure (Option String)} (hdurable : host.durable = some durable)
      (hget : (durable.get ((host.read s).durableKey fingerprint)).exec s = (result, s'))
      (hresult : ∀ text t, result = .ok (some text) → Selection.decode? text ≠ some t) :
      Step host (.reading fingerprint) s (.done (.error (.cacheMiss fingerprint)))
        (host.write (host.read s').countMiss s')
  | unread {fingerprint : String} {s : σ} (hdurable : host.durable = none) :
      Step host (.reading fingerprint) s (.done (.error (.cacheMiss fingerprint)))
        (host.write (host.read s).countMiss s)
  | promote (fingerprint : String) (t : Selection) (s : σ) :
      Step host (.promoting fingerprint t) s
        (.done (.ok (some ((host.read s).promote fingerprint t).1)))
        (host.write ((host.read s).promote fingerprint t).2 s)
  | refuse {fingerprint schema : String} {e : Failure} {s : σ}
      (hcompile : compile schema = .error e) :
      Step host (.store fingerprint schema) s (.done (.error e)) s
  | insert {fingerprint schema : String} {t : Selection} {durable : DurableStore σ} {s : σ}
      (hcompile : compile schema = .ok t) (hdurable : host.durable = some durable) :
      Step host (.store fingerprint schema) s (.writing fingerprint t)
        (host.write ((host.read s).insert fingerprint t) s)
  | keep {fingerprint schema : String} {t : Selection} {s : σ}
      (hcompile : compile schema = .ok t) (hdurable : host.durable = none) :
      Step host (.store fingerprint schema) s (.done (.ok (some t)))
        (host.write ((host.read s).insert fingerprint t) s)
  | write {fingerprint : String} {t : Selection} {durable : DurableStore σ} {s : σ}
      (hdurable : host.durable = some durable) :
      Step host (.writing fingerprint t) s (.done (.ok (some t)))
        ((durable.set ((host.read s).durableKey fingerprint) t.encode
          (host.read s).config.ttlSecs).exec s).2
  | unwritten {fingerprint : String} {t : Selection} {s : σ} (hdurable : host.durable = none) :
      Step host (.writing fingerprint t) s (.done (.ok (some t))) s
  | wipe (s : σ) : Step host .clear s (.done (.ok none)) (host.write (host.read s).clear s)
  | stay (result : Except Failure (Option Selection)) (s : σ) :
      Step host (.done result) s (.done result) s

variable {host : CacheHost σ} {task task' : CacheTask} {s s' : σ}

private theorem run_bind {α β : Type} (action : StateM σ α) (next : α → StateM σ β) (s : σ) :
    (action >>= next).run s = (next (action.run s).1).run (action.run s).2 :=
  rfl

private theorem step_reading (host : CacheHost σ) (fingerprint : String) (s : σ) :
    Step host (.reading fingerprint) s ((advance host (.reading fingerprint)).run s).1
      ((advance host (.reading fingerprint)).run s).2 := by
  cases hdurable : host.durable with
  | none =>
      simp only [advance, hdurable]
      exact .unread hdurable
  | some durable =>
      obtain ⟨result, s', hget⟩ : ∃ result s',
          (durable.get ((host.read s).durableKey fingerprint)).exec s = (result, s') :=
        ⟨_, _, rfl⟩
      have hrun : (durable.get ((host.read s).durableKey fingerprint)).run.run s = (result, s') :=
        hget
      have hstate : (get : StateM σ σ).run s = (s, s) := rfl
      simp only [advance, hdurable, run_bind]
      rw [hstate, hrun]
      cases result with
      | error e => exact .lose hdurable hget (by simp)
      | ok found =>
          cases found with
          | none => exact .lose hdurable hget (by simp)
          | some text =>
              cases hdecode : Selection.decode? text with
              | none =>
                  simp only [hdecode]
                  refine .lose hdurable hget ?_
                  rintro _ _ ⟨⟩
                  simp [hdecode]
              | some t =>
                  simp only [hdecode]
                  exact .find hdurable hget hdecode

/-- Advancing a task is one step. -/
theorem advance_step (host : CacheHost σ) (task : CacheTask) (s : σ) :
    Step host task s ((task.advance host).run s).1 ((task.advance host).run s).2 := by
  cases task with
  | resolve fingerprint =>
      cases hlocal : (host.read s).lookup? fingerprint with
      | some t =>
          simp only [advance, StateT.run_bind, StateT.run_get, pure_bind, hlocal]
          exact .hit hlocal
      | none =>
          cases hdurable : host.durable with
          | none =>
              simp only [advance, StateT.run_bind, StateT.run_get, pure_bind, hlocal, hdurable]
              exact .absent hlocal hdurable
          | some durable =>
              simp only [advance, StateT.run_bind, StateT.run_get, pure_bind, hlocal, hdurable]
              exact .ask hlocal hdurable
  | reading fingerprint => exact step_reading host fingerprint s
  | promoting fingerprint t => exact .promote fingerprint t s
  | store fingerprint schema =>
      cases hcompile : compile schema with
      | error e =>
          simp only [advance, hcompile]
          exact .refuse hcompile
      | ok t =>
          cases hdurable : host.durable with
          | none =>
              simp only [advance, hcompile, hdurable]
              exact .keep hcompile hdurable
          | some durable =>
              simp only [advance, hcompile, hdurable]
              exact .insert hcompile hdurable
  | writing fingerprint t =>
      cases hdurable : host.durable with
      | none =>
          simp only [advance, hdurable]
          exact .unwritten hdurable
      | some durable =>
          simp only [advance, hdurable]
          exact .write hdurable
  | clear => exact .wipe s
  | done result => exact .stay result s

/-- How many steps a task may still take. -/
def stepsLeft : CacheTask → Nat
  | .resolve _ => 3
  | .reading _ | .store .. => 2
  | .promoting .. | .writing .. | .clear => 1
  | .done _ => 0

namespace Step

theorem stepsLeft_le (h : Step host task s task' s') : task'.stepsLeft ≤ task.stepsLeft - 1 := by
  cases h <;> exact Nat.le_of_ble_eq_true rfl

/-- Apart from durable writes, a step only reads the durable tier and writes
the cache back. -/
theorem closed {P : σ → Prop} (h : Step host task s task' s')
    (hwrite : ∀ s c, P s → c.config = (host.read s).config → P (host.write c s))
    (hget : ∀ {s s' durable key result}, P s → host.durable = some durable →
      (durable.get key).exec s = (result, s') → P s')
    (htask : task.holdsLock = false) (hs : P s) : P s' := by
  cases h with
  | hit | absent | unread | wipe => exact hwrite _ _ hs rfl
  | ask | refuse | stay => exact hs
  | find hdurable hread => exact hget hs hdurable hread
  | lose hdurable hread => exact hwrite _ _ (hget hs hdurable hread) rfl
  | promote => exact hwrite _ _ hs (Cache.config_promote _ _ _)
  | insert | keep => exact hwrite _ _ hs (Cache.config_insert _ _ _)
  | write | unwritten => cases htask

theorem valid {valid : σ → Prop} (h : host.Lawful valid) (hstep : Step host task s task' s')
    (hs : valid s) : valid s' := by
  cases htask : task.holdsLock with
  | false =>
      refine hstep.closed (fun _ _ => h.valid_write) ?_ htask hs
      rintro s _ durable key _ hs hdurable hget
      obtain rfl := congrArg Prod.snd hget
      exact h.valid_get key hs hdurable
  | true =>
      cases hstep with
      | write hdurable => exact h.valid_set _ _ hs hdurable
      | unwritten => exact hs
      | _ => cases htask

/-- A step that need not wait for the lock leaves the local entries alone. -/
theorem lookup?_eq {valid : σ → Prop} (h : host.Lawful valid) (hstep : Step host task s task' s')
    (hs : valid s) (htask : task.awaitsLock = false) (fingerprint : String) :
    (host.read s').lookup? fingerprint = (host.read s).lookup? fingerprint := by
  cases hstep with
  | hit | absent | unread => exact h.lookup?_write hs (by rfl) (by rfl) fingerprint
  | ask | refuse | unwritten | stay => rfl
  | find hdurable hget =>
      obtain rfl := congrArg Prod.snd hget
      rw [h.read_get _ hs hdurable]
  | lose hdurable hget =>
      obtain rfl := congrArg Prod.snd hget
      refine (h.lookup?_write (h.valid_get _ hs hdurable) (by rfl) (by rfl) fingerprint).trans ?_
      rw [h.read_get _ hs hdurable]
  | write hdurable => rw [h.read_set _ _ hs hdurable]
  | promote | insert | keep | wipe => cases htask

/-- Only a tree found in the durable tier makes a look-up wait for the lock. -/
theorem awaitsLock_of_none (hstep : Step host task s task' s') (hnone : host.durable = none)
    (htask : task.awaitsLock = false) : task'.awaitsLock = false := by
  cases hstep with
  | find hdurable => simp [hnone] at hdurable
  | promote | insert | keep | refuse | wipe => cases htask
  | hit | ask | absent | lose | unread | write | unwritten | stay => rfl

end Step

/-- The stages of a task that was started for a request. -/
inductive Serves (host : CacheHost σ) (ledger : CacheHost.Ledger) : CacheRequest → CacheTask → Prop
  | resolve (fingerprint : String) :
      Serves host ledger (.resolve fingerprint) (.resolve fingerprint)
  | reading (fingerprint : String) :
      Serves host ledger (.resolve fingerprint) (.reading fingerprint)
  | promoting {fingerprint : String} {t : Selection} (ht : ledger.tree fingerprint t) :
      Serves host ledger (.resolve fingerprint) (.promoting fingerprint t)
  | store {fingerprint schema : String}
      (hcovered : (CacheRequest.store fingerprint schema).Covered ledger) :
      Serves host ledger (.store fingerprint schema) (.store fingerprint schema)
  | writing {fingerprint schema : String} {t : Selection}
      (hcompile : compile schema = .ok t) (ht : ledger.Covers fingerprint t) :
      Serves host ledger (.store fingerprint schema) (.writing fingerprint t)
  | clear : Serves host ledger .clear .clear
  | done {request : CacheRequest} {result : Except Failure (Option Selection)}
      (h : request.Answers ledger.tree result) : Serves host ledger request (.done result)

namespace Serves

variable {valid : σ → Prop} {holds : σ → String → String → Prop} {config : CacheConfig}
  {ledger : CacheHost.Ledger} {request : CacheRequest}

theorem of_request (hcovered : request.Covered ledger) :
    Serves host ledger request request.task := by
  cases request with
  | store fingerprint schema => exact .store hcovered
  | resolve fingerprint => exact .resolve fingerprint
  | clear => exact .clear

/-- One step keeps both tiers sound and the task serving its request. -/
theorem step (h : host.Honest valid holds) (htask : Serves host ledger request task)
    (hstep : Step host task s task' s') (hs : host.Sound valid holds config ledger s) :
    Serves host ledger request task' ∧ host.Sound valid holds config ledger s' := by
  cases hstep with
  | hit hlocal =>
      cases htask
      exact ⟨.done (.found (hs.within.known _ _ hlocal)), hs.write h hs.within.countHit⟩
  | ask =>
      cases htask
      exact ⟨.reading _, hs⟩
  | absent | unread =>
      cases htask
      exact ⟨.done .missed, hs.write h hs.within.countMiss⟩
  | find hdurable hget hdecode =>
      cases htask
      have hholds := h.holds_of_get hs.valid hdurable (congrArg Prod.fst hget)
      rw [hs.durableKey_eq] at hholds
      exact ⟨.promoting (ledger.tree_of_text (hs.text _ _ hholds) hdecode),
        hs.get h hdurable hget⟩
  | lose hdurable hget =>
      cases htask
      have hafter := hs.get h hdurable hget
      exact ⟨.done .missed, hafter.write h hafter.within.countMiss⟩
  | promote =>
      cases htask with
      | promoting ht =>
          obtain ⟨hknown, hwithin⟩ := hs.within.promote ht
          exact ⟨.done (.found hknown), hs.write h hwithin⟩
  | refuse hcompile =>
      cases htask
      exact ⟨.done (.refused hcompile), hs⟩
  | insert hcompile =>
      cases htask with
      | store hcovered =>
          have ht := hcovered _ hcompile
          exact ⟨.writing hcompile ht, hs.write h (hs.within.insert ht.1 fun _ _ _ => id)⟩
  | keep hcompile =>
      cases htask with
      | store hcovered =>
          have ht := hcovered _ hcompile
          exact ⟨.done (.stored hcompile ht.1), hs.write h (hs.within.insert ht.1 fun _ _ _ => id)⟩
  | write hdurable =>
      cases htask with
      | writing hcompile ht => exact ⟨.done (.stored hcompile ht.1), hs.set h hdurable ht.2⟩
  | unwritten =>
      cases htask with
      | writing hcompile ht => exact ⟨.done (.stored hcompile ht.1), hs⟩
  | wipe =>
      cases htask
      exact ⟨.done .cleared, hs.write h hs.within.clear⟩
  | stay => exact ⟨htask, hs⟩

end Serves

end CacheTask

end FieldQuery
