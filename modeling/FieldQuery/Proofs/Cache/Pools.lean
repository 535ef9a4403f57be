import FieldQuery.Proofs.Cache.Interleaving
import FieldQuery.Proofs.Cache.Sharing
import Mathlib.Logic.Function.Basic

/-!
Requests to several caches over one durable tier, under way at the same time.
Every cache has its own lock, so which of its jobs may advance is for the cache
itself to say. Without the moves of the others a schedule still runs, and leaves
a cache with the same jobs.
-/

namespace FieldQuery

/-- The state of all hosts, and the jobs that were started on each. -/
structure Pools (σ ι : Type) where
  state : σ
  jobs : ι → List Job

namespace Pools

variable {σ ι ε : Type}

def idle (state : σ) : Pools σ ι := ⟨state, fun _ => []⟩

/-- The jobs of one host. -/
def pool (pools : Pools σ ι) (i : ι) : Pool σ := ⟨pools.state, pools.jobs i⟩

def move? [DecidableEq ι] (hosts : ι → CacheHost σ) (pools : Pools σ ι) (i : ι) (move : Move) :
    Option (Pools σ ι) :=
  ((pools.pool i).move? (hosts i) move).map fun next =>
    ⟨next.state, Function.update pools.jobs i next.jobs⟩

/-- Runs a schedule of moves on several hosts, if each may happen in its turn. -/
def run? [DecidableEq ι] (hosts : ι → CacheHost σ) (pools : Pools σ ι) :
    List (ι × Move) → Option (Pools σ ι)
  | [] => some pools
  | (i, move) :: rest => (pools.move? hosts i move).bind fun next => next.run? hosts rest

end Pools

/-- A request that the move starts is about the fingerprint of a text. -/
def Move.IsDerived (move : Move) : Prop := ∀ request, move = .start request → request.IsDerived

namespace Pool

variable {σ : Type} {host : CacheHost σ} {pool pool' : Pool σ} {move : Move}

/-- Jobs stay with their fingerprints. -/
theorem Moves.isDerived (hmove : pool.Moves host move pool') (hderived : move.IsDerived)
    (h : ∀ job ∈ pool.jobs, job.task.IsDerived) : ∀ job ∈ pool'.jobs, job.task.IsDerived := by
  intro found hfound
  cases hmove with
  | start request =>
      rcases List.mem_append.mp hfound with hfound | hfound
      · exact h found hfound
      · obtain rfl := List.mem_singleton.mp hfound
        exact CacheTask.isDerived_task (hderived request rfl)
  | advance hjob hmay hstep =>
      rcases List.mem_or_eq_of_mem_set hfound with hfound | rfl
      · exact h found hfound
      · exact (h _ (List.mem_of_getElem? hjob)).step hstep
  | @abandon place job hjob =>
      rcases List.mem_or_eq_of_mem_set hfound with hfound | rfl
      · exact h found hfound
      · exact h job (List.mem_of_getElem? hjob)

end Pool

namespace CacheHost.Sharing

variable {σ ι ε : Type} {hosts : ι → CacheHost σ} {durable : DurableStore σ}
  {prefixes : ι → String} {entry : σ → String → ε} {valid : σ → Prop} {i j : ι} {s t : σ}
  {jobs : List Job} {move : Move} {next : Pool σ}

variable (h : Sharing hosts durable prefixes entry valid)
include h

/-- A move may happen as well in a state that looks alike, and does the same. -/
theorem move_alike (hst : (hosts i).Alike (prefixes i) entry valid s t)
    (hjobs : ∀ job ∈ jobs, job.task.IsDerived)
    (hmove : (Pool.mk s jobs).Moves (hosts i) move next) :
    ∃ t', (Pool.mk t jobs).move? (hosts i) move = some ⟨t', next.jobs⟩ ∧
      (hosts i).Alike (prefixes i) entry valid next.state t' := by
  cases hmove with
  | start request => exact ⟨t, rfl, hst⟩
  | @advance place job task s' hjob hmay hstep =>
      have hsteps := CacheTask.advance_step (hosts i) job.task t
      obtain ⟨hsame, halike⟩ := h.step_alike hst (hjobs job (List.mem_of_getElem? hjob)) hstep hsteps
      refine ⟨((job.task.advance (hosts i)).run t).2, ?_, halike⟩
      exact Pool.move?_advance hjob hmay (Prod.ext hsame.symm rfl)
  | abandon hjob => exact ⟨t, by simp [Pool.move?, hjob], hst⟩

/-- A move on another host does not show. -/
theorem alike_of_move (hij : i ≠ j)
    (hkeys : ∀ a b, prefixes i ++ fingerprint a ≠ prefixes j ++ fingerprint b) (hs : valid s)
    (hjobs : ∀ job ∈ jobs, job.task.IsDerived)
    (hmove : (Pool.mk s jobs).Moves (hosts j) move next) :
    (hosts i).Alike (prefixes i) entry valid s next.state := by
  cases hmove with
  | start | abandon => exact Alike.refl hs
  | advance hjob hmay hstep =>
      exact h.alike_of_step hij hkeys hs (hjobs _ (List.mem_of_getElem? hjob)) hstep

theorem run_moves_alike [DecidableEq ι]
    (hkeys : ∀ j, i ≠ j → ∀ a b, prefixes i ++ fingerprint a ≠ prefixes j ++ fingerprint b)
    {schedule : List (ι × Move)} (hschedule : ∀ sent ∈ schedule, sent.2.IsDerived)
    {pools final : Pools σ ι} (hjobs : ∀ j, ∀ job ∈ pools.jobs j, job.task.IsDerived)
    (hst : (hosts i).Alike (prefixes i) entry valid pools.state t)
    (hrun : pools.run? hosts schedule = some final) :
    ∃ t', (Pool.mk t (pools.jobs i)).run? (hosts i) (sentTo i schedule) =
        some ⟨t', final.jobs i⟩ ∧
      (hosts i).Alike (prefixes i) entry valid final.state t' := by
  induction schedule generalizing pools t with
  | nil =>
      cases hrun
      exact ⟨t, rfl, hst⟩
  | cons sent rest ih =>
      obtain ⟨j, move⟩ := sent
      have hmove : move.IsDerived := hschedule _ (.head _)
      have hrest : ∀ sent ∈ rest, sent.2.IsDerived := fun sent hsent =>
        hschedule sent (.tail _ hsent)
      obtain ⟨middle, hmiddle, hrun⟩ := Option.bind_eq_some_iff.mp hrun
      obtain ⟨next, hnext, rfl⟩ := Option.map_eq_some_iff.mp hmiddle
      have hmoves := Pool.moves_of_move? hnext
      have hlater : ∀ k, ∀ job ∈ Function.update pools.jobs j next.jobs k, job.task.IsDerived :=
        (Function.forall_update_iff pools.jobs fun _ jobs => ∀ job ∈ jobs, job.task.IsDerived).mpr
          ⟨hmoves.isDerived hmove (hjobs j), fun k _ => hjobs k⟩
      by_cases hij : i = j
      · subst hij
        obtain ⟨t', ht', halike⟩ := h.move_alike hst (hjobs i) hmoves
        obtain ⟨final', hfinal, hend⟩ := ih hrest hlater halike hrun
        dsimp only at hfinal
        rw [Function.update_self] at hfinal
        refine ⟨final', ?_, hend⟩
        rw [sentTo_cons_self, Pool.run?, ht']
        exact hfinal
      · have halike := (h.alike_of_move hij (hkeys j hij) hst.left (hjobs j) hmoves).symm.trans hst
        obtain ⟨final', hfinal, hend⟩ := ih hrest hlater halike hrun
        dsimp only at hfinal
        rw [Function.update_of_ne hij] at hfinal
        rw [sentTo_cons_of_ne (Ne.symm hij)]
        exact ⟨final', hfinal, hend⟩

end CacheHost.Sharing

end FieldQuery
