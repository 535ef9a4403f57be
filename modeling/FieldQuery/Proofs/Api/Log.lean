import FieldQuery.Proofs.Api.Effects

/-!
Invocations of a request. If every operation writes down how it was invoked, a
call leaves one entry if its name is known and none otherwise, and an execution
leaves those of its calls in order, up to a failure.
-/

namespace FieldQuery

variable {Obj σ κ : Type}

/-- One invocation for each call of a selection whose name is known. -/
def Api.invocations (api : Api Obj σ) (ctx : Context Obj σ) (t : Selection) :
    List (Invocation Obj σ) :=
  t.flatMap fun c => (api.bound? ctx c).toList.map Prod.snd

/-- Computations that append certain entries to a log. -/
def Appends (log : σ → List κ) (new : List κ) (α : Type) (x : StateM σ α) : Prop :=
  ∀ s, log (x.run s).2 = log s ++ new

/-- What follows and appends nothing leaves the log as it is. -/
theorem Appends.lasts (log : σ → List κ) (new : List κ) :
    Lasts (Appends log []) (Appends log new) where
  bind hx hf s := by
    refine (hf _ _).trans ?_
    rw [List.append_nil]
    exact hx s

theorem Appends.compositional_nil (log : σ → List κ) : Compositional (Appends log []) where
  pure _ s := (List.append_nil (log s)).symm
  bind := (lasts log []).bind

/-- Every invocation of an operation appends its label to a log, to which data
access appends nothing. -/
structure Api.Logged (api : Api Obj σ) (ctx : Context Obj σ) (log : σ → List κ)
    (label : Invocation Obj σ → κ) : Prop where
  operation : ∀ name operation, Fields.get? api.operations name = some operation →
    ∀ inv : Invocation Obj σ, inv.ctx = ctx → inv.name = name →
      Appends log [label inv] _ (operation inv).run
  dataAccess : ctx.Obeys (Appends log [])

namespace Api.Logged

variable {api : Api Obj σ} {ctx : Context Obj σ} {log : σ → List κ}
  {label : Invocation Obj σ → κ}

/-- A call is answered after at most one invocation. -/
theorem answer (h : api.Logged ctx log label) (c : Call) :
    Appends log (((api.bound? ctx c).toList.map Prod.snd).map label) _
      (api.answer ctx c).run := by
  have hnil := Appends.compositional_nil log
  have hlasts := Appends.lasts log (((api.bound? ctx c).toList.map Prod.snd).map label)
  apply hlasts.answer hnil h.dataAccess
  apply hlasts.invoke hnil
  · intro operation inv hbound
    obtain ⟨hname, hctx⟩ := Api.get?_of_bound? hbound
    rw [hbound]
    exact h.operation _ _ hname inv hctx rfl
  · intro hnone _ a
    rw [hnone]
    exact hnil.pure a

/-- An execution runs the calls of its selection in order, up to a failure. -/
theorem executeCalls (h : api.Logged ctx log label) (calls : List Call) (members : Fields Json)
    (s : σ) :
    ∃ ran, ran <+: api.invocations ctx calls ∧
      log ((api.executeCalls ctx members calls).exec s).2 = log s ++ ran.map label := by
  induction calls generalizing members s with
  | nil => exact ⟨[], List.nil_prefix, (List.append_nil _).symm⟩
  | cons c rest ih =>
      cases hdeadline : ctx.checkDeadline with
      | error e =>
          have hended : (api.executeCalls ctx members (c :: rest)).exec s = (.error e, s) := by
            rw [Api.executeCalls, hdeadline]
            rfl
          rw [hended]
          exact ⟨[], List.nil_prefix, (List.append_nil _).symm⟩
      | ok =>
          have hanswer := h.answer c s
          obtain ⟨result, s₁, hresult⟩ : ∃ result s₁,
              (api.answer ctx c).exec s = (result, s₁) := ⟨_, _, rfl⟩
          change log ((api.answer ctx c).exec s).2 = _ at hanswer
          rw [hresult] at hanswer
          cases result with
          | error e =>
              rw [Api.exec_executeCalls_of_error hdeadline hresult]
              exact ⟨_, List.prefix_append _ _, hanswer⟩
          | ok v =>
              rw [Api.exec_executeCalls_of_ok hdeadline hresult]
              obtain ⟨ran, hran, hlog⟩ := ih (mergeEntry .replaceArrays members c.key v) s₁
              refine ⟨_ ++ ran, (List.prefix_append_right_inj _).mpr hran, ?_⟩
              rw [hlog, hanswer, List.map_append, List.append_assoc]

end Api.Logged

end FieldQuery
