import FieldQuery.Proofs.Cache.Memory
import FieldQuery.Proofs.Cache.Steps

/-!
Requests carried out at the same time. Jobs advance in any order, from one
point of waiting to the next, and may be abandoned there. A call of the durable
tier takes effect and returns in one step; if it returns later, that is a run in
which nobody gets the lock meanwhile. An invariant of such runs is one of the
state and one of each task, which a step of one task keeps.
-/

namespace FieldQuery

/-- A request under way. -/
structure Job where
  request : CacheRequest
  task : CacheTask
  abandoned : Bool

namespace Job

def start (request : CacheRequest) : Job := ⟨request, request.task, false⟩

/-- An abandoned job has given the lock up. -/
def holdsLock (job : Job) : Bool := job.task.holdsLock && !job.abandoned

/-- An abandoned job takes no step, but a durable write that was under way may
still take effect. -/
def mayAdvance (job : Job) (lockIsFree : Bool) : Bool :=
  if job.abandoned then job.task.holdsLock else !job.task.awaitsLock || lockIsFree

end Job

/-- What may happen next; jobs are told by their place. -/
inductive Move where
  | start (request : CacheRequest)
  | advance (place : Nat)
  | abandon (place : Nat)
deriving DecidableEq

/-- The state of a host and the jobs that were started, in order. -/
structure Pool (σ : Type) where
  state : σ
  jobs : List Job

namespace Pool

variable {σ : Type}

def idle (state : σ) : Pool σ := ⟨state, []⟩

def lockIsFree (pool : Pool σ) : Bool := pool.jobs.all fun job => !job.holdsLock

def move? (host : CacheHost σ) (pool : Pool σ) : Move → Option (Pool σ)
  | .start request => some { pool with jobs := pool.jobs ++ [.start request] }
  | .advance place =>
      match pool.jobs[place]? with
      | some job =>
          if job.mayAdvance pool.lockIsFree then
            let (task, state) := (job.task.advance host).run pool.state
            some ⟨state, pool.jobs.set place { job with task }⟩
          else none
      | none => none
  | .abandon place =>
      match pool.jobs[place]? with
      | some job => some { pool with jobs := pool.jobs.set place { job with abandoned := true } }
      | none => none

/-- Runs a schedule, if each of its moves may happen when its turn comes. -/
def run? (host : CacheHost σ) (pool : Pool σ) : List Move → Option (Pool σ)
  | [] => some pool
  | move :: rest => (pool.move? host move).bind fun next => next.run? host rest

/-- All that a move can do. -/
inductive Moves (host : CacheHost σ) (pool : Pool σ) : Move → Pool σ → Prop
  | start (request : CacheRequest) :
      Moves host pool (.start request) ⟨pool.state, pool.jobs ++ [.start request]⟩
  | advance {place : Nat} {job : Job} {task : CacheTask} {state : σ}
      (hjob : pool.jobs[place]? = some job) (hmay : job.mayAdvance pool.lockIsFree = true)
      (hstep : CacheTask.Step host job.task pool.state task state) :
      Moves host pool (.advance place) ⟨state, pool.jobs.set place { job with task }⟩
  | abandon {place : Nat} {job : Job} (hjob : pool.jobs[place]? = some job) :
      Moves host pool (.abandon place)
        ⟨pool.state, pool.jobs.set place { job with abandoned := true }⟩

variable {host : CacheHost σ} {pool pool' : Pool σ} {move : Move} {schedule : List Move}

theorem moves_of_move? (h : pool.move? host move = some pool') : pool.Moves host move pool' := by
  cases move with
  | start request =>
      cases h
      exact .start request
  | advance place =>
      simp only [move?] at h
      split at h
      next job hjob =>
        split at h
        next hmay =>
          cases h
          exact .advance hjob hmay (CacheTask.advance_step host job.task pool.state)
        next => cases h
      next => cases h
  | abandon place =>
      simp only [move?] at h
      split at h
      next job hjob =>
        cases h
        exact .abandon hjob
      next => cases h

theorem move?_advance {place : Nat} {job : Job} {task : CacheTask} {state : σ}
    (hjob : pool.jobs[place]? = some job) (hmay : job.mayAdvance pool.lockIsFree = true)
    (hadvance : (job.task.advance host).run pool.state = (task, state)) :
    pool.move? host (.advance place) = some ⟨state, pool.jobs.set place { job with task }⟩ := by
  simp only [move?, hjob, hmay, if_true, hadvance]

/-- A run up to a move, the move, and the run from there on. -/
theorem run?_append_cons {next final : Pool σ} {rest : List Move}
    (hrun : pool.run? host schedule = some pool') (hmove : pool'.move? host move = some next)
    (hrest : next.run? host rest = some final) :
    pool.run? host (schedule ++ move :: rest) = some final := by
  induction schedule generalizing pool with
  | nil =>
      cases hrun
      simpa only [List.nil_append, run?, hmove, Option.bind_some] using hrest
  | cons first others ih =>
      obtain ⟨second, hfirst, hothers⟩ := Option.bind_eq_some_iff.mp hrun
      simpa only [List.cons_append, run?, hfirst, Option.bind_some] using ih hothers

theorem Moves.length_le (h : pool.Moves host move pool') :
    pool.jobs.length ≤ pool'.jobs.length := by
  cases h <;> simp

/-- A schedule runs one move after the other. -/
theorem run?_induction {P : Pool σ → Prop} (hrun : pool.run? host schedule = some pool')
    (hstep : ∀ {move pool pool'}, move ∈ schedule → Moves host pool move pool' → P pool → P pool')
    (h : P pool) : P pool' := by
  induction schedule generalizing pool with
  | nil =>
      cases hrun
      exact h
  | cons move rest ih =>
      obtain ⟨next, hmove, hrest⟩ := Option.bind_eq_some_iff.mp hrun
      exact ih hrest (fun hmem => hstep (.tail _ hmem))
        (hstep (.head _) (moves_of_move? hmove) h)

/-- The state satisfies `I`, and each job at its place satisfies `P`. -/
structure Keeps (I : σ → Prop) (P : Nat → CacheRequest → CacheTask → Prop) (pool : Pool σ) :
    Prop where
  state : I pool.state
  jobs : ∀ place job, pool.jobs[place]? = some job → P place job.request job.task

namespace Keeps

variable {I : σ → Prop} {P : Nat → CacheRequest → CacheTask → Prop}

theorem idle {s : σ} (h : I s) : Keeps I P (idle s) := ⟨h, by simp [Pool.idle]⟩

/-- Giving a job a new task keeps the others as they are. -/
theorem set {place : Nat} {job : Job} {task : CacheTask} {state : σ} (abandoned : Bool)
    (h : Keeps I P pool) (hstate : I state) (htask : P place job.request task) :
    Keeps I P ⟨state, pool.jobs.set place ⟨job.request, task, abandoned⟩⟩ := by
  refine ⟨hstate, fun other found hfound => ?_⟩
  rw [List.getElem?_set] at hfound
  split at hfound
  next hplace =>
    split at hfound
    next =>
      cases hfound
      exact hplace ▸ htask
    next => cases hfound
  next => exact h.jobs other found hfound

/-- A move keeps what each step of a task keeps. -/
theorem moves (hmove : pool.Moves host move pool') (h : Keeps I P pool)
    (hstart : ∀ request, move = .start request → P pool.jobs.length request request.task)
    (hstep : ∀ {place request task s task' s'}, CacheTask.Step host task s task' s' →
      I s → P place request task → I s' ∧ P place request task') : Keeps I P pool' := by
  cases hmove with
  | start request =>
      refine ⟨h.state, fun place job hjob => ?_⟩
      rw [List.getElem?_append] at hjob
      split at hjob
      next => exact h.jobs place job hjob
      next hplace =>
        obtain ⟨hlast, rfl⟩ : place - pool.jobs.length = 0 ∧ Job.start request = job := by
          simpa [List.getElem?_singleton] using hjob
        obtain rfl : place = pool.jobs.length := by omega
        exact hstart request rfl
  | advance hjob hmay htask =>
      obtain ⟨hstate, hkept⟩ := hstep htask h.state (h.jobs _ _ hjob)
      exact h.set _ hstate hkept
  | abandon hjob => exact h.set true h.state (h.jobs _ _ hjob)

theorem run (hrun : pool.run? host schedule = some pool') (h : Keeps I P pool)
    (hstart : ∀ place request, .start request ∈ schedule → pool.jobs.length ≤ place →
      P place request request.task)
    (hstep : ∀ {place request task s task' s'}, CacheTask.Step host task s task' s' →
      I s → P place request task → I s' ∧ P place request task') : Keeps I P pool' := by
  refine (run?_induction (P := fun next => pool.jobs.length ≤ next.jobs.length ∧ Keeps I P next)
    hrun ?_ ⟨Nat.le_refl _, h⟩).2
  rintro move next next' hmem hmove ⟨hlength, hnext⟩
  refine ⟨Nat.le_trans hlength hmove.length_le, hnext.moves hmove ?_ hstep⟩
  rintro request rfl
  exact hstart _ request hmem hlength

end Keeps

end Pool

namespace CacheHost

/-- Trees that read back as themselves if at all, and their texts. -/
def Ledger.ofTrees (tree : String → Selection → Prop)
    (hreadable : ∀ {fingerprint t u}, tree fingerprint t →
      Selection.decode? t.encode = some u → u = t) : Ledger where
  tree := tree
  text fingerprint text := ∃ t, tree fingerprint t ∧ text = t.encode
  tree_of_text := by
    rintro fingerprint _ u ⟨t, ht, rfl⟩ hdecode
    exact hreadable ht hdecode ▸ ht

end CacheHost

/-- The tree of a schema that the schedule stores under the fingerprint. -/
def StoredIn (schedule : List Move) (fingerprint : String) (t : Selection) : Prop :=
  ∃ schema, .start (.store fingerprint schema) ∈ schedule ∧ compile schema = .ok t

open CacheHost in
/-- However requests are interleaved and abandoned, and whatever calls of the
durable tier fail, the local tier keeps within its room, and every tree in it
and every tree that a job answers with was stored under the same fingerprint.
The durable tier gives only texts that it was given, which read back as their
trees if at all. -/
theorem interleaved_trees_stored {σ : Type} {host : CacheHost σ} {valid : σ → Prop}
    {holds : σ → String → String → Prop} (h : host.Honest valid holds) {s : σ} (hs : valid s)
    (hempty : (host.read s).entries = [])
    (hnothing : ∀ other text, ¬ holds s ((host.read s).config.keyPrefix ++ other) text)
    {schedule : List Move}
    (hreadable : ∀ fingerprint t u, StoredIn schedule fingerprint t →
      Selection.decode? t.encode = some u → u = t)
    {pool : Pool σ} (hrun : (Pool.idle s).run? host schedule = some pool) :
    (host.read pool.state).entries.length ≤ max 1 (host.read s).config.capacity ∧
    (∀ fingerprint t, (host.read pool.state).lookup? fingerprint = some t →
      StoredIn schedule fingerprint t) ∧
    ∀ job ∈ pool.jobs, ∀ t, job.task = .done (.ok (some t)) → ∀ fingerprint,
      (job.request = .resolve fingerprint ∨ ∃ schema, job.request = .store fingerprint schema) →
        StoredIn schedule fingerprint t := by
  let ledger : Ledger := .ofTrees (StoredIn schedule) fun ht => hreadable _ _ _ ht
  have hstart : host.Sound valid holds (host.read s).config ledger s :=
    .of_fresh hs hempty hnothing
  have hkeeps : pool.Keeps (host.Sound valid holds (host.read s).config ledger)
      (fun _ request task => CacheTask.Serves host ledger request task) := by
    refine (Pool.Keeps.idle hstart).run hrun ?_ fun hstep hs htask => (htask.step h hstep hs).symm
    intro place request hmem _
    apply CacheTask.Serves.of_request
    cases request with
    | resolve | clear => trivial
    | store fingerprint schema =>
        intro t hcompile
        have ht : StoredIn schedule fingerprint t := ⟨schema, hmem, hcompile⟩
        exact ⟨ht, t, ht, rfl⟩
  refine ⟨?_, fun fingerprint t ht => hkeeps.state.within.known fingerprint t ht, ?_⟩
  · rw [Nat.max_comm]
    exact hkeeps.state.within.room
  · rintro ⟨request, task, abandoned⟩ hjob t rfl fingerprint hrequest
    obtain ⟨place, hplace⟩ := List.getElem?_of_mem hjob
    cases hkeeps.jobs place _ hplace with
    | done hanswers =>
        rcases hrequest with rfl | ⟨schema, rfl⟩
        · cases hanswers with
          | found ht => exact ht
        · cases hanswers with
          | stored _ ht => exact ht

/-- A store that is abandoned during its durable write, which still takes
effect in the end, beside a look-up and another store. -/
def abandonedStore : List Move :=
  [.start (.store "x" "ping"), .start (.resolve "x"), .advance 0, .abandon 0, .advance 1,
    .start (.store "y" "pong"), .advance 2, .advance 0]

theorem abandonedStore_stored :
    ∃ pool, (Pool.idle (MemoryHost.fresh [])).run? MemoryHost.host abandonedStore = some pool ∧
      (MemoryHost.host.read pool.state).entries.length ≤ 1 ∧
      ∀ job ∈ pool.jobs, ∀ t, job.task = .done (.ok (some t)) → ∀ fingerprint,
        (job.request = .resolve fingerprint ∨ ∃ schema, job.request = .store fingerprint schema) →
          StoredIn abandonedStore fingerprint t := by
  obtain ⟨pool, hrun⟩ : ∃ pool,
      (Pool.idle (MemoryHost.fresh [])).run? MemoryHost.host abandonedStore = some pool :=
    ⟨_, by with_unfolding_all rfl⟩
  have hreadable : ∀ fingerprint t u, StoredIn abandonedStore fingerprint t →
      Selection.decode? t.encode = some u → u = t := by
    rintro fingerprint t u ⟨schema, hmem, hcompile⟩ hdecode
    have hschema : schema = "ping" ∨ schema = "pong" := by
      simp only [abandonedStore, List.mem_cons, Move.start.injEq, CacheRequest.store.injEq,
        reduceCtorEq, false_or, or_false, List.not_mem_nil] at hmem
      exact hmem.imp And.right And.right
    rcases hschema with rfl | rfl
    · cases compile_ping.symm.trans hcompile
      exact Option.some.inj (hdecode.symm.trans decode_ping)
    · cases compile_pong.symm.trans hcompile
      exact Option.some.inj (hdecode.symm.trans decode_pong)
  obtain ⟨hroom, -, hanswers⟩ := interleaved_trees_stored MemoryHost.fallible.toHonest
    (MemoryHost.lasting_fresh []) rfl (fun _ _ => MemoryHost.contents_fresh_ne _ _ _)
    hreadable hrun
  exact ⟨pool, hrun, hroom, hanswers⟩

end FieldQuery
