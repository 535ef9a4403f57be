import FieldQuery.Model
import FieldQuery.Proofs.Api.Effects

/-!
What the operations of a model do to its repository. Each makes some reads, and
changes something in at most one call, with which it ends: after the authorizer
has allowed it, on the record that was found, and with parameters that have
gone through the hook.
-/

namespace FieldQuery

variable {Obj σ : Type}

/-- A call of one method of a repository. -/
inductive RepositoryCall (Obj : Type) where
  | count
  | list (range : Option (Nat × Nat)) (hints : Hints)
  | find (id : Value Obj) (hints : Hints)
  | create (params : MutationParams Obj)
  | update (id : Value Obj) (params : MutationParams Obj)
  | destroy (id : Value Obj)

/-- Whether a call is of a method that only reads. -/
def RepositoryCall.isRead : RepositoryCall Obj → Bool
  | .count | .list .. | .find .. => true
  | .create _ | .update .. | .destroy _ => false

namespace Repository

/-- The state after a call. -/
def perform (r : Repository Obj σ) (s : σ) : RepositoryCall Obj → σ
  | .count => (r.count.exec s).2
  | .list range hints => ((r.list range hints).exec s).2
  | .find id hints => ((r.find id hints).exec s).2
  | .create params => ((r.create params).exec s).2
  | .update id params => ((r.update id params).exec s).2
  | .destroy id => ((r.destroy id).exec s).2

def performAll (r : Repository Obj σ) (s : σ) (calls : List (RepositoryCall Obj)) : σ :=
  calls.foldl r.perform s

/-- One state comes from another by reads. -/
def Reads (r : Repository Obj σ) (s s' : σ) : Prop :=
  ∃ calls, (∀ call ∈ calls, call.isRead = true) ∧ s' = r.performAll s calls

theorem Reads.refl (r : Repository Obj σ) (s : σ) : r.Reads s s := ⟨[], by simp, rfl⟩

theorem Reads.perform {r : Repository Obj σ} {s s' : σ} (h : r.Reads s s')
    {call : RepositoryCall Obj} (hread : call.isRead = true) : r.Reads s (r.perform s' call) := by
  obtain ⟨calls, hreads, rfl⟩ := h
  refine ⟨calls ++ [call], ?_, ?_⟩
  · simpa [or_imp, forall_and] using ⟨hreads, hread⟩
  · rw [performAll, performAll, List.foldl_append]
    rfl

/-- What no read changes. -/
def Unread {β : Type} (r : Repository Obj σ) (view : σ → β) : Prop :=
  ∀ call s, call.isRead = true → view (r.perform s call) = view s

theorem Unread.performAll {β : Type} {r : Repository Obj σ} {view : σ → β} (h : r.Unread view)
    {calls : List (RepositoryCall Obj)} (hreads : ∀ call ∈ calls, call.isRead = true) (s : σ) :
    view (r.performAll s calls) = view s := by
  induction calls generalizing s with
  | nil => rfl
  | cons call rest ih =>
      obtain ⟨hcall, hrest⟩ := List.forall_mem_cons.mp hreads
      exact (ih hrest (r.perform s call)).trans (h call s hcall)

end Repository

namespace Model

/-- The operations of a model. -/
inductive Endpoint where
  | listAll
  | showOne
  | createOne
  | updateOne
  | destroyOne

def operation (m : Model Obj σ) : Endpoint → Operation Obj σ
  | .listAll => m.listAll
  | .showOne => m.showOne
  | .createOne => m.createOne
  | .updateOne => m.updateOne
  | .destroyOne => m.destroyOne

/-- Parameters that a hook, if there is one, returns for an argument. -/
inductive Hooked (hook : Option (ParamsHook Obj)) : Value Obj → MutationParams Obj → Prop
  | plain (fields : Fields (Value Obj)) (hnone : hook = none) : Hooked hook (.map fields) fields
  | through {f : ParamsHook Obj} {fields : Fields (Value Obj)} {params : MutationParams Obj}
      (hsome : hook = some f) (hok : f fields = .ok params) : Hooked hook (.map fields) params

section Params

variable {ctx : Context Obj σ} {hook : Option (ParamsHook Obj)} {v : Value Obj}

end Params

/-- What an invocation of an operation calls on the repository, from the state
in which it begins. -/
inductive Performs (m : Model Obj σ) (inv : Invocation Obj σ) (s : σ) :
    Endpoint → List (RepositoryCall Obj) → Prop
  | read {endpoint : Endpoint} {calls : List (RepositoryCall Obj)}
      (hreads : ∀ call ∈ calls, call.isRead = true) : Performs m inv s endpoint calls
  | create {params : MutationParams Obj}
      (hallowed : inv.ctx.authorizer .create (.type m.typeName) = true)
      (hparams : Hooked m.createHook (inv.arg 0) params) :
      Performs m inv s .createOne [.create params]
  | update {item : Value Obj} {params : MutationParams Obj}
      (hfound : ((m.repository.find (inv.arg 0) []).exec s).1 = .ok (some item))
      (hallowed : inv.ctx.authorizer .update (.ofRecord m.typeName item) = true)
      (hparams : Hooked m.updateHook (inv.arg 1) params) :
      Performs m inv s .updateOne [.find (inv.arg 0) [], .update (inv.arg 0) params]
  | destroy {item : Value Obj}
      (hfound : ((m.repository.find (inv.arg 0) []).exec s).1 = .ok (some item))
      (hallowed : inv.ctx.authorizer .destroy (.ofRecord m.typeName item) = true) :
      Performs m inv s .destroyOne [.find (inv.arg 0) [], .destroy (inv.arg 0)]

variable {m : Model Obj σ} {inv : Invocation Obj σ} {s s' : σ} {action : Action} {hints : Hints}
  {item : Value Obj} {act : Value Obj → Run σ (Value Obj)}

theorem exec_authorize_allowed {subject : Subject Obj}
    (hallowed : inv.ctx.authorizer action subject = true) (s : σ) :
    (authorize inv action subject).exec s = (.ok (), s) := by
  have hok : inv.ctx.authorize action subject = .ok () := if_pos hallowed
  rw [authorize, hok]
  rfl

/-- Goes on with a record that was found and may be acted on. -/
def guarded (m : Model Obj σ) (inv : Invocation Obj σ) (action : Action) (hints : Hints)
    (act : Value Obj → Run σ (Value Obj)) : Run σ (Value Obj) := do
  let item ← m.findRecord (inv.arg 0) hints
  authorize inv action (.ofRecord m.typeName item)
  act item

end Model

end FieldQuery
