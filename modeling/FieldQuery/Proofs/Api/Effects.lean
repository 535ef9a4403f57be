import FieldQuery.Api

/-!
Effects of a request. All that an execution does to its host, it does through
operations and data access. Whatever sequencing preserves therefore holds of an
execution if it holds of these; so an execution changes nothing that they leave
alone, and answers in every state alike if they do.
-/

namespace FieldQuery

variable {Obj σ : Type}

/-- A result of a chain comes from a result of its first link. -/
theorem exists_of_bind_ok {ε α β : Type} {x : Except ε α} {f : α → Except ε β} {b : β}
    (h : x >>= f = .ok b) : ∃ a, x = .ok a ∧ f a = .ok b := by
  cases x with
  | error e => cases h
  | ok a => exact ⟨a, rfl, h⟩

theorem exists_of_map_ok {ε α β : Type} {x : Except ε α} {f : α → β} {b : β}
    (h : x.map f = .ok b) : ∃ a, x = .ok a ∧ f a = b := by
  cases x with
  | error e => cases h
  | ok a => exact ⟨a, rfl, Except.ok.inj h⟩

section

variable {ε α β : Type} {x : ExceptT ε (StateM σ) α} {f : α → ExceptT ε (StateM σ) β} {s s' : σ}

theorem run_bind_of_ok {a : α} (hx : x.run.run s = (.ok a, s')) :
    (x >>= f).run.run s = (f a).run.run s' := by
  change (ExceptT.bindCont f (x.run.run s).1).run (x.run.run s).2 = _
  rw [hx]
  rfl

theorem run_bind_of_error {e : ε} (hx : x.run.run s = (.error e, s')) :
    (x >>= f).run.run s = (.error e, s') := by
  change (ExceptT.bindCont f (x.run.run s).1).run (x.run.run s).2 = _
  rw [hx]
  rfl

end

namespace Run

variable {α β : Type} {x : Run σ α} {f : α → Run σ β} {s s' : σ}

theorem exec_bind_ok {a : α} (hx : x.exec s = (.ok a, s')) : (x >>= f).exec s = (f a).exec s' :=
  run_bind_of_ok hx

theorem exec_bind_error {e : Failure} (hx : x.exec s = (.error e, s')) :
    (x >>= f).exec s = (.error e, s') :=
  run_bind_of_error hx

end Run

theorem exists_of_run_bind_ok {ε α β : Type} {x : ExceptT ε (StateM σ) α}
    {f : α → ExceptT ε (StateM σ) β} {b : β} {s s' : σ}
    (h : (x >>= f).run.run s = (.ok b, s')) :
    ∃ a s₁, x.run.run s = (.ok a, s₁) ∧ (f a).run.run s₁ = (.ok b, s') := by
  obtain ⟨result, s₁, hx⟩ : ∃ result s₁, x.run.run s = (result, s₁) := ⟨_, _, rfl⟩
  have hbind : (x >>= f).run.run s = (ExceptT.bindCont f (x.run.run s).1).run (x.run.run s).2 := rfl
  rw [hx] at hbind
  cases result with
  | error e => cases hbind.symm.trans h
  | ok a => exact ⟨a, s₁, hx, hbind.symm.trans h⟩

/-- A property of computations that holds of those without effects and is kept
by sequencing. -/
structure Compositional (Q : (α : Type) → StateM σ α → Prop) : Prop where
  pure {α : Type} (a : α) : Q α (Pure.pure a)
  bind {α β : Type} {x : StateM σ α} {f : α → StateM σ β} : Q α x → (∀ a, Q β (f a)) →
    Q β (x >>= f)

/-- A property that lasts while computations with another one follow. -/
structure Lasts (Q Q' : (α : Type) → StateM σ α → Prop) : Prop where
  bind {α β : Type} {x : StateM σ α} {f : α → StateM σ β} : Q' α x → (∀ a, Q β (f a)) →
    Q' β (x >>= f)

/-- The data access of a context has a property. -/
def Context.Obeys (Q : (α : Type) → StateM σ α → Prop) (ctx : Context Obj σ) : Prop :=
  ∀ access, ctx.dataAccess = some access → ∀ typeName id hints, Q _ (access typeName id hints).run

/-- Host code that a request may run has a property. -/
structure Api.Obeys (Q : (α : Type) → StateM σ α → Prop) (api : Api Obj σ) (ctx : Context Obj σ) :
    Prop where
  operation : ∀ name operation, Fields.get? api.operations name = some operation →
    ∀ inv : Invocation Obj σ, inv.ctx = ctx → inv.name = name → Q _ (operation inv).run
  dataAccess : ctx.Obeys Q

namespace Api

variable {api : Api Obj σ} {ctx : Context Obj σ} {c : Call}

/-- A request ends with the first call that is answered by a failure. -/
theorem exec_executeCalls_of_error (hdeadline : ctx.checkDeadline = .ok ()) {st st' : σ}
    {e : Failure} (h : (api.answer ctx c).exec st = (.error e, st')) (members : Fields Json)
    (rest : List Call) : (api.executeCalls ctx members (c :: rest)).exec st = (.error e, st') := by
  have hchecked : (Run.ofExcept ctx.checkDeadline).exec st = (.ok (), st) :=
    congrArg (·, st) hdeadline
  exact (Run.exec_bind_ok hchecked).trans (Run.exec_bind_error h)

theorem exec_executeCalls_of_ok (hdeadline : ctx.checkDeadline = .ok ()) {st st' : σ} {v : Json}
    (h : (api.answer ctx c).exec st = (.ok v, st')) (members : Fields Json) (rest : List Call) :
    (api.executeCalls ctx members (c :: rest)).exec st =
      (api.executeCalls ctx (mergeEntry .replaceArrays members c.key v) rest).exec st' := by
  have hchecked : (Run.ofExcept ctx.checkDeadline).exec st = (.ok (), st) :=
    congrArg (·, st) hdeadline
  exact (Run.exec_bind_ok hchecked).trans (Run.exec_bind_ok h)

/-- The operation that a top-level call runs and its invocation, if the name of
the call is bound or goes on from a bound one. -/
def bound? (api : Api Obj σ) (ctx : Context Obj σ) (c : Call) :
    Option (Operation Obj σ × Invocation Obj σ) :=
  match Fields.get? api.operations c.name with
  | some operation => some (operation, ⟨c.name, ctx.resolveParams c.args, c.hints, ctx⟩)
  | none => (api.longestPrefix? c.path).map fun found =>
      (found.2.1, ⟨found.1, ctx.resolveParams c.args, [], ctx⟩)

theorem get?_of_longestPrefix? {path rest : List String} {head : String}
    {operation : Operation Obj σ} (h : api.longestPrefix? path = some (head, operation, rest)) :
    Fields.get? api.operations head = some operation := by
  obtain ⟨size, -, hsize⟩ := List.exists_of_findSome?_eq_some h
  obtain ⟨found, hfound, hsame⟩ := Option.map_eq_some_iff.mp hsize
  cases hsame
  exact hfound

/-- What a call runs is bound to the name under which it is invoked. -/
theorem get?_of_bound? {operation : Operation Obj σ} {inv : Invocation Obj σ}
    (h : api.bound? ctx c = some (operation, inv)) :
    Fields.get? api.operations inv.name = some operation ∧ inv.ctx = ctx := by
  unfold bound? at h
  cases hname : Fields.get? api.operations c.name with
  | some bound =>
      rw [hname] at h
      cases h
      exact ⟨hname, rfl⟩
  | none =>
      rw [hname] at h
      obtain ⟨⟨head, bound, rest⟩, hlongest, hsame⟩ := Option.map_eq_some_iff.mp h
      cases hsame
      exact ⟨get?_of_longestPrefix? hlongest, rfl⟩

end Api

namespace Lasts

variable {Q Q' : (α : Type) → StateM σ α → Prop} {ε ζ α β : Type} {api : Api Obj σ}
  {ctx : Context Obj σ} {c : Call}

/-- The same for computations that may fail. -/
theorem bind_run (hlasts : Lasts Q Q') (h : Compositional Q) {x : ExceptT ε (StateM σ) α}
    {f : α → ExceptT ε (StateM σ) β} (hx : Q' _ x.run) (hf : ∀ a, Q _ (f a).run) :
    Q' _ (x >>= f).run := by
  rw [ExceptT.run_bind]
  apply hlasts.bind hx
  rintro (e | a)
  · exact h.pure _
  · exact hf a

theorem map_result (hlasts : Lasts Q Q') (h : Compositional Q) {x : ExceptT ε (StateM σ) α}
    (f : Except ε α → Except ζ β) (hx : Q' _ x.run) :
    Q' _ (x.run >>= fun result => Pure.pure (f result)) :=
  hlasts.bind hx fun _ => h.pure _

/-- A call does what its operation does, if there is one. -/
theorem invoke (hlasts : Lasts Q Q') (h : Compositional Q)
    (hbound : ∀ operation inv, api.bound? ctx c = some (operation, inv) → Q' _ (operation inv).run)
    (hnone : api.bound? ctx c = none → ∀ {α : Type} (a : α), Q' _ (Pure.pure a)) :
    Q' _ (api.invoke ctx c).run := by
  unfold Api.bound? at hbound hnone
  unfold Api.invoke
  dsimp only
  cases hname : Fields.get? api.operations c.name with
  | some operation =>
      rw [hname] at hbound
      exact hlasts.map_result h _ (hbound _ _ rfl)
  | none =>
      rw [hname] at hbound hnone
      cases hlongest : api.longestPrefix? c.path with
      | none =>
          rw [hlongest] at hnone
          exact hnone rfl _
      | some found =>
          rw [hlongest] at hbound
          exact hlasts.bind_run h (hlasts.map_result h _ (hbound _ _ rfl)) fun _ => h.pure _

end Lasts

namespace Compositional

variable {Q : (α : Type) → StateM σ α → Prop} {ε ζ α β : Type}

theorem lasts (h : Compositional Q) : Lasts Q Q := ⟨h.bind⟩

theorem bind_run (h : Compositional Q) {x : ExceptT ε (StateM σ) α}
    {f : α → ExceptT ε (StateM σ) β} (hx : Q _ x.run) (hf : ∀ a, Q _ (f a).run) :
    Q _ (x >>= f).run :=
  h.lasts.bind_run h hx hf

end Compositional

/-- Loading ahead does what data access does. -/
theorem Context.Obeys.eagerLoad {Q : (α : Type) → StateM σ α → Prop} {ctx : Context Obj σ}
    (hobeys : ctx.Obeys Q) (h : Compositional Q) (hints : Hints) (v : Value Obj) :
    Q _ (Api.eagerLoad ctx hints v).run := by
  unfold Api.eagerLoad
  split
  · split
    · exact h.pure _
    · split
      next access _ haccess =>
        exact h.bind_run (hobeys _ haccess _ _ _) fun _ => h.pure _
      next => exact h.pure _
  · exact h.pure _

/-- Answering a call does what its invocation does, and then what data access
does. -/
theorem Lasts.answer {Q Q' : (α : Type) → StateM σ α → Prop} {api : Api Obj σ}
    {ctx : Context Obj σ} {c : Call} (hlasts : Lasts Q Q') (h : Compositional Q)
    (hobeys : ctx.Obeys Q) (hinvoke : Q' _ (api.invoke ctx c).run) :
    Q' _ (api.answer ctx c).run := by
  have hresolve : Q' _ (api.resolve ctx c).run := by
    apply hlasts.bind_run h hinvoke
    intro v
    cases c.nested with
    | none => exact h.pure _
    | some selection =>
        apply h.bind_run (h.lasts.map_result h _ (hobeys.eagerLoad h c.hints v))
        intro loaded
        exact h.pure _
  apply hlasts.bind hresolve
  rintro ((e | e) | v) <;> exact h.pure _

namespace Api.Obeys

variable {Q : (α : Type) → StateM σ α → Prop} {api : Api Obj σ} {ctx : Context Obj σ}

theorem answer (hobeys : api.Obeys Q ctx) (h : Compositional Q) (c : Call) :
    Q _ (api.answer ctx c).run := by
  apply h.lasts.answer h hobeys.dataAccess
  apply h.lasts.invoke h
  · intro operation inv hbound
    obtain ⟨hname, hctx⟩ := Api.get?_of_bound? hbound
    exact hobeys.operation _ _ hname inv hctx rfl
  · intro _ _ a
    exact h.pure a

/-- One call of the selection after the other. -/
theorem executeCalls (hobeys : api.Obeys Q ctx) (h : Compositional Q) (calls : List Call)
    (members : Fields Json) : Q _ (api.executeCalls ctx members calls).run := by
  induction calls generalizing members with
  | nil => exact h.pure _
  | cons c rest ih =>
      apply h.bind_run (h.pure _)
      intro _
      apply h.bind_run (hobeys.answer h c)
      intro v
      exact ih _

theorem execute (hobeys : api.Obeys Q ctx) (h : Compositional Q) (selection : Selection) :
    Q _ (api.execute ctx selection).run :=
  hobeys.executeCalls h selection []

end Api.Obeys

/-- Computations that keep a property of states. -/
def Keeps (P : σ → Prop) (α : Type) (x : StateM σ α) : Prop := ∀ s, P s → P (x.run s).2

/-- Computations whose result no state has a part in, and that change none. -/
def Effectless (α : Type) (x : StateM σ α) : Prop := ∃ a, x = Pure.pure a

theorem compositional_effectless : Compositional (Effectless (σ := σ)) where
  pure a := ⟨a, rfl⟩
  bind := by
    rintro α β x f ⟨a, rfl⟩ hf
    rw [pure_bind]
    exact hf a

end FieldQuery
