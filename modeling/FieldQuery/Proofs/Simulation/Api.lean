import FieldQuery.Proofs.Simulation.Render

/-!
Requests side by side. If the operations, the data access and the contexts of
two requests simulate each other, executing one selection agrees from states
that correspond.
-/

namespace FieldQuery

variable {Obj Obj' σ τ : Type} {excused : Failure → Prop} {R : Obj → Obj' → Prop}
  {followed : Obj → String → Prop} {states : σ → τ → Prop}

/-- Failure behind a call that went wrong. -/
def CallFailure.cause : CallFailure → Failure
  | .refused e | .failed e => e

theorem CallFailure.cause_ofOperation (e : Failure) : (CallFailure.ofOperation e).cause = e := by
  cases e <;> rfl

/-- Operations that answer alike when they run under their contexts. -/
def Operation.Simulates (excused : Failure → Prop) (R : Obj → Obj' → Prop)
    (states : σ → τ → Prop) (ctx : Context Obj σ) (ctx' : Context Obj' τ) (name : String)
    (operation : Operation Obj σ) (operation' : Operation Obj' τ) : Prop :=
  ∀ args args' hints, Value.ItemsCorrespond R args args' →
    RunsAgree excused (Value.Corresponds R) states (operation ⟨name, args, hints, ctx⟩)
      (operation' ⟨name, args', hints, ctx'⟩)

/-- Data access that finds corresponding records. -/
def DataAccess.Simulates (excused : Failure → Prop) (R : Obj → Obj' → Prop)
    (states : σ → τ → Prop) (access : DataAccess Obj σ) (access' : DataAccess Obj' τ) : Prop :=
  ∀ typeName id id' hints, Value.Corresponds R id id' →
    RunsAgree excused (Option.Rel (Value.Corresponds R)) states (access typeName id hints)
      (access' typeName id' hints)

structure Api.Simulates (excused : Failure → Prop) (R : Obj → Obj' → Prop)
    (followed : Obj → String → Prop) (states : σ → τ → Prop) (api : Api Obj σ) (ctx : Context Obj σ)
    (api' : Api Obj' τ) (ctx' : Context Obj' τ) : Prop where
  context : ctx.Simulates excused R followed ctx'
  operation : ∀ name, Option.Rel (Operation.Simulates excused R states ctx ctx' name)
    (Fields.get? api.operations name) (Fields.get? api'.operations name)
  id : ∀ o o', R o o' →
    Option.Rel (Value.Corresponds R) (ctx.domain.id o) (ctx'.domain.id o')
  dataAccess : Option.Rel (DataAccess.Simulates excused R states) ctx.dataAccess ctx'.dataAccess
  deadline : ctx.deadline = ctx'.deadline
  hidden : ∀ name e, excused e → excused (Api.hideAttribute name e)

/-- Failures of a call are excused by their cause. -/
abbrev CallFailure.Excused (excused : Failure → Prop) (failure : CallFailure) : Prop :=
  excused failure.cause

namespace CallRun

variable {α β : Type} {rel : α → β → Prop}

theorem ofExcept_agree {x : Except Failure α} {y : Except Failure β} (h : Agree excused rel x y) :
    RunsAgree (CallFailure.Excused excused) rel states (ofExcept x) (ofExcept y) := by
  apply RunsAgree.of_agree
  apply h.mapError
  intro e he
  exact he

theorem ofOperation_agree {x : Run σ α} {y : Run τ β} (h : RunsAgree excused rel states x y) :
    RunsAgree (CallFailure.Excused excused) rel states (ofOperation x) (ofOperation y) := by
  apply h.map_result
  · intro a b hab
    exact .ok hab
  · intro e
    exact .error _
  · intro e he
    refine ⟨CallFailure.ofOperation e, ?_, rfl⟩
    rwa [CallFailure.Excused, CallFailure.cause_ofOperation]

theorem ofRun_agree {x : Run σ α} {y : Run τ β} (h : RunsAgree excused rel states x y) :
    RunsAgree (CallFailure.Excused excused) rel states (ofRun x) (ofRun y) := by
  apply h.map_result
  · intro a b hab
    exact .ok hab
  · intro e
    exact .error _
  · intro e he
    exact ⟨.failed e, he, rfl⟩

end CallRun

namespace Api.Simulates

variable {api : Api Obj σ} {ctx : Context Obj σ} {api' : Api Obj' τ} {ctx' : Context Obj' τ}

theorem memberOf_agree (h : api.Simulates excused R followed states ctx api' ctx')
    (segment : String) {v : Value Obj} {v' : Value Obj'} (hv : Value.Corresponds R v v') :
    Agree excused (Value.Corresponds R) (memberOf ctx segment v) (memberOf ctx' segment v') := by
  cases hv with
  | map hv => exact .ok (.getD_null (hv.get? segment))
  | object ho =>
      have hopened := h.context.opened _ _ ho
      apply hopened.bind
      intro e e' _ he
      exact he segment [] [] .nil
  | _ => exact .error _

theorem walk_agree (h : api.Simulates excused R followed states ctx api' ctx') (name : String)
    {path : List String} {v : Value Obj} {v' : Value Obj'} (hv : Value.Corresponds R v v') :
    Agree excused (Value.Corresponds R) (walk ctx name path v) (walk ctx' name path v') := by
  induction path generalizing v v' with
  | nil => exact .ok hv
  | cons segment path ih =>
      rw [walk, walk, hv.isNull_eq]
      split
      next => exact .ok hv
      next =>
        have hmember := (h.memberOf_agree segment hv).mapError (h.hidden name)
        apply hmember.bind
        intro w w' _ hw
        exact ih hw

theorem longestPrefix?_rel (h : api.Simulates excused R followed states ctx api' ctx')
    (path : List String) :
    Option.Rel
      (fun found found' => found.1 = found'.1 ∧ found.2.2 = found'.2.2 ∧
        Operation.Simulates excused R states ctx ctx' found.1 found.2.1 found'.2.1)
      (api.longestPrefix? path) (api'.longestPrefix? path) := by
  apply findSome?_rel
  intro size
  rcases rel_cases (h.operation (Text.join "." (path.take size))) with
    ⟨hnone, hnone'⟩ | ⟨operation, operation', hsome, hsome', hoperation⟩
  · dsimp only
    rw [hnone, hnone']
    exact .none
  · dsimp only
    rw [hsome, hsome']
    exact .some ⟨rfl, rfl, hoperation⟩

theorem invoke_agree (h : api.Simulates excused R followed states ctx api' ctx') (c : Call) :
    RunsAgree (CallFailure.Excused excused) (Value.Corresponds R) states (api.invoke ctx c)
      (api'.invoke ctx' c) := by
  have hargs := h.context.resolveParams c.args
  unfold invoke
  dsimp only
  rcases rel_cases (h.operation c.name) with
    ⟨hnone, hnone'⟩ | ⟨operation, operation', hsome, hsome', hoperation⟩
  · rw [hnone, hnone']
    dsimp only
    rcases rel_cases (h.longestPrefix?_rel c.path) with
      ⟨hunbound, hunbound'⟩ | ⟨⟨head, operation, rest⟩, ⟨head', operation', rest'⟩, hfound, hfound',
        hprefix⟩
    · rw [hunbound, hunbound']
      exact CallRun.ofExcept_agree (.error _)
    · rw [hfound, hfound']
      obtain ⟨rfl, rfl, hoperation⟩ := hprefix
      have hrun := CallRun.ofOperation_agree (hoperation _ _ [] hargs)
      apply hrun.bind
      intro v v' hv
      exact CallRun.ofExcept_agree (h.walk_agree c.name hv)
  · rw [hsome, hsome']
    exact CallRun.ofOperation_agree (hoperation _ _ _ hargs)

/-- An object that reloads itself, or is fetched again by its id. -/
theorem reload_agree (h : api.Simulates excused R followed states ctx api' ctx') (hint : Hint)
    (hints : Hints) {o : Obj} {o' : Obj'} (ho : R o o') :
    RunsAgree excused (Value.Corresponds R) states (eagerLoad ctx (hint :: hints) (.object o))
      (eagerLoad ctx' (hint :: hints) (.object o')) := by
  have hself : RunsAgree excused (Value.Corresponds R) states (pure (.object o))
      (pure (.object o')) := .pure (.object ho)
  unfold eagerLoad
  dsimp only
  rcases rel_cases (h.context.prefetch o o' (hint :: hints) ho) with
    ⟨hnone, hnone'⟩ | ⟨loaded, loaded', hsome, hsome', hloaded⟩
  · rw [hnone, hnone']
    dsimp only
    rcases rel_cases (h.id o o' ho) with ⟨hanonymous, hanonymous'⟩ | ⟨id, id', hid, hid', hids⟩
    · rw [hanonymous, hanonymous']
      exact hself
    rcases rel_cases h.dataAccess with ⟨hmissing, hmissing'⟩ | ⟨find, find', hfind, hfind', haccess⟩
    · rw [hid, hid', hmissing, hmissing']
      exact hself
    · rw [hid, hid', hfind, hfind', h.context.typeName o o' ho]
      have hrun := haccess (ctx'.domain.typeName o') _ _ (hint :: hints) hids
      apply hrun.bind
      intro found found' hfound
      rcases rel_cases hfound with ⟨rfl, rfl⟩ | ⟨record, record', rfl, rfl, hrecord⟩
      · exact hself
      · exact .pure hrecord
  · rw [hsome, hsome']
    exact .pure hloaded

theorem eagerLoad_agree (h : api.Simulates excused R followed states ctx api' ctx')
    (hints : Hints) {v : Value Obj} {v' : Value Obj'} (hv : Value.Corresponds R v v') :
    RunsAgree excused (Value.Corresponds R) states (eagerLoad ctx hints v)
      (eagerLoad ctx' hints v') := by
  cases hints with
  | nil => exact .pure hv
  | cons hint hints =>
      have hself : RunsAgree excused (Value.Corresponds R) states (pure v) (pure v') := .pure hv
      cases hv with
      | object ho => exact h.reload_agree hint hints ho
      | _ => exact hself

theorem load_agree (h : api.Simulates excused R followed states ctx api' ctx') (c : Call) :
    RunsAgree (CallFailure.Excused excused) (Value.Corresponds R) states (api.load ctx c)
      (api'.load ctx' c) := by
  apply (h.invoke_agree c).bind
  intro v v' hv
  exact CallRun.ofRun_agree (h.eagerLoad_agree c.hints hv)

theorem resolve_agree (h : api.Simulates excused R followed states ctx api' ctx') (c : Call)
    {s : σ} {t : τ} (hstates : states s t) (hreads : (api.answerReads ctx c s).Within followed) :
    AgreeIn (CallFailure.Excused excused) Eq states ((api.resolve ctx c).run.run s)
      ((api'.resolve ctx' c).run.run t) := by
  unfold answerReads at hreads
  cases hnested : c.nested with
  | none =>
      rw [resolve_of_leaf ctx hnested, resolve_of_leaf ctx' hnested]
      apply (h.invoke_agree c s t hstates).bind
      intro v v' s' t' _ hv hstates'
      exact .ok hv.toLeaf_eq hstates'
  | some selection =>
      rw [hnested] at hreads
      rw [resolve_of_nested ctx hnested, resolve_of_nested ctx' hnested]
      apply (h.load_agree c s t hstates).bind
      intro loaded loaded' s' t' hok hloaded hstates'
      have hloadedReads := hreads.after_ok (congrArg Prod.fst hok)
      refine CallRun.ofExcept_agree ?_ s' t' hstates'
      refine h.context.renderWith_agree ?_ hloaded hloadedReads
      intro source source' hsource hsourceReads
      have hcalls := h.context.renderCalls_agree hsource [] selection hsourceReads
      apply hcalls.map
      intro members members' hsame
      rw [hsame]

/-- What becomes of the result of a top-level call. -/
def settle (ctx : Context Obj σ) : Except CallFailure Json → Except Failure Json
  | .ok v => .ok v
  | .error (.refused e) => .error e
  | .error (.failed e) => ctx.contain (.error e)

theorem answer_eq (api : Api Obj σ) (ctx : Context Obj σ) (c : Call) :
    api.answer ctx c =
      ExceptT.mk ((api.resolve ctx c).run >>= fun result => pure (settle ctx result)) := by
  unfold answer
  congr 1
  refine bind_congr fun result => ?_
  rcases result with (e | e) | v <;> rfl

theorem answer_agree (h : api.Simulates excused R followed states ctx api' ctx') (c : Call)
    {s : σ} {t : τ} (hstates : states s t) (hreads : (api.answerReads ctx c s).Within followed) :
    AgreeIn excused Eq states ((api.answer ctx c).exec s) ((api'.answer ctx' c).exec t) := by
  rw [answer_eq, answer_eq]
  apply (h.resolve_agree c hstates hreads).map_result
  · intro v v' hsame
    exact .ok hsame
  · rintro (e | e)
    · exact .error e
    · exact h.context.contain e
  · rintro (e | e) he
    · exact ⟨e, he, rfl⟩
    · exact ⟨e, he, h.context.raise e he⟩

theorem checkDeadline_eq (h : api.Simulates excused R followed states ctx api' ctx') :
    ctx.checkDeadline = ctx'.checkDeadline := by
  unfold Context.checkDeadline
  rw [h.deadline]

/-- One call of the selection after the other, with the same members so far. -/
theorem executeCalls_agree (h : api.Simulates excused R followed states ctx api' ctx')
    {calls : List Call} (members : Fields Json) {s : σ} {t : τ} (hstates : states s t)
    (hreads : (api.tailReads ctx calls s).Within followed) :
    AgreeIn excused Eq states ((api.executeCalls ctx members calls).exec s)
      ((api'.executeCalls ctx' members calls).exec t) := by
  induction calls generalizing members s t with
  | nil => exact .ok rfl hstates
  | cons c calls ih =>
      have hcheck : AgreeIn excused Eq states ((Run.ofExcept ctx.checkDeadline).run.run s)
          ((Run.ofExcept ctx'.checkDeadline).run.run t) :=
        .of_agree (.of_eq h.checkDeadline_eq) hstates
      apply hcheck.bind
      intro _ _ s₁ t₁ hok _ hstates₁
      have hahead : ctx.checkDeadline = .ok () := congrArg Prod.fst hok
      obtain rfl : s = s₁ := congrArg Prod.snd hok
      have hcallReads := hreads.after_ok hahead
      have hanswer := h.answer_agree c hstates₁ hcallReads.left
      apply hanswer.bind
      rintro v _ s₂ t₂ hok rfl hstates₂
      have hrest := hcallReads.right.after_ok (congrArg Prod.fst hok)
      obtain rfl : ((api.answer ctx c).exec s).2 = s₂ := congrArg Prod.snd hok
      exact ih _ hstates₂ hrest

theorem execute_agree (h : api.Simulates excused R followed states ctx api' ctx')
    {selection : Selection} {s : σ} {t : τ} (hstates : states s t)
    (hreads : (api.tailReads ctx selection s).Within followed) :
    AgreeIn excused Eq states ((api.execute ctx selection).exec s)
      ((api'.execute ctx' selection).exec t) :=
  h.executeCalls_agree [] hstates hreads

end Api.Simulates

end FieldQuery
