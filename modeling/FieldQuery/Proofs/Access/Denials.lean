import FieldQuery.Proofs.Model.Permission
import FieldQuery.Proofs.Simulation.Api

/-!
Host code that only passes on denials. Whatever such code asks an authorizer,
it gives up with the first denial, so the checks it makes and what it comes to
once all of them are allowed depend on the state alone. Hence it goes the same
way under every authorizer that allows more, unless it was denied something.
-/

namespace FieldQuery

variable {Obj σ α β : Type}

def Failure.IsDenial (e : Failure) : Prop := ∃ action subject, e = .unauthorized action subject

namespace Authorizer

/-- The first of some checks that is denied. -/
def firstDenied? (authorizer : Authorizer Obj) (checks : List (Action × Subject Obj)) :
    Option (Action × Subject Obj) :=
  checks.find? fun (action, subject) => !authorizer action subject

/-- The second authorizer allows whatever the first one does. -/
def Within (first second : Authorizer Obj) : Prop :=
  ∀ action subject, first action subject = true → second action subject = true

theorem Within.firstDenied?_eq_none {first second : Authorizer Obj} (h : first.Within second)
    {checks : List (Action × Subject Obj)} (hchecks : first.firstDenied? checks = none) :
    second.firstDenied? checks = none := by
  apply List.find?_eq_none.mpr
  rintro ⟨action, subject⟩ hcheck
  have hfirst := List.find?_eq_none.mp hchecks _ hcheck
  simp only [Bool.not_eq_true', Bool.not_eq_false] at hfirst ⊢
  exact h action subject hfirst

end Authorizer

/-- Computations that use an authorizer only by passing on its denials: they
make checks in order, end with the first one that is denied, and come to one
outcome if none is. -/
def PropagatesDenials (domain : Domain Obj) (run : Authorizer Obj → Run σ α) : Prop :=
  ∀ s, ∃ checks : List (Action × Subject Obj), ∃ outcome, ∀ authorizer : Authorizer Obj,
    match authorizer.firstDenied? checks with
    | none => (run authorizer).exec s = outcome
    | some (action, subject) =>
        ((run authorizer).exec s).1 = .error (.unauthorized action (subject.typeName domain))

namespace PropagatesDenials

variable {domain : Domain Obj}

/-- Computations that ask no authorizer. -/
theorem of_forall_eq {run : Authorizer Obj → Run σ α} (h : ∀ first second, run first = run second) :
    PropagatesDenials domain run := by
  intro s
  refine ⟨[], (run .allowAll).exec s, fun authorizer => ?_⟩
  exact congrArg (Run.exec · s) (h authorizer .allowAll)

theorem authorize (scope : Scope Obj) (action : Action) (subject : Subject Obj) :
    PropagatesDenials scope.domain fun authorizer =>
      (Run.ofExcept ({ scope with authorizer }.authorize action subject) : Run σ Unit) := by
  intro s
  refine ⟨[(action, subject)], (.ok (), s), fun authorizer => ?_⟩
  cases hallowed : authorizer action subject with
  | true =>
      have hnone : authorizer.firstDenied? [(action, subject)] = none := by
        simp [Authorizer.firstDenied?, hallowed]
      rw [hnone]
      exact congrArg (·, s) (if_pos hallowed)
  | false =>
      have hsome : authorizer.firstDenied? [(action, subject)] = some (action, subject) := by
        simp [Authorizer.firstDenied?, hallowed]
      rw [hsome]
      exact if_neg (Bool.eq_false_iff.mp hallowed)

/-- Checks of a sequence: those of its first part, and then those of the rest
from the state and the value with which the first part succeeds. -/
theorem bind {run : Authorizer Obj → Run σ α} {rest : Authorizer Obj → α → Run σ β}
    (h : PropagatesDenials domain run)
    (hrest : ∀ a, PropagatesDenials domain fun authorizer => rest authorizer a) :
    PropagatesDenials domain fun authorizer => run authorizer >>= rest authorizer := by
  intro s
  obtain ⟨checks, ⟨result, s'⟩, hchecks⟩ := h s
  cases result with
  | error e =>
      refine ⟨checks, (.error e, s'), fun authorizer => ?_⟩
      have hrun := hchecks authorizer
      split at hrun
      next => exact Run.exec_bind_error hrun
      next => exact congrArg Prod.fst (Run.exec_bind_error (Prod.ext hrun rfl))
  | ok a =>
      obtain ⟨later, outcome, hlater⟩ := hrest a s'
      refine ⟨checks ++ later, outcome, fun authorizer => ?_⟩
      have hrun := hchecks authorizer
      have happend : authorizer.firstDenied? (checks ++ later) =
          (authorizer.firstDenied? checks).or (authorizer.firstDenied? later) :=
        List.find?_append
      rw [happend]
      split at hrun
      next hnone =>
        rw [hnone, Option.none_or, Run.exec_bind_ok hrun]
        exact hlater authorizer
      next hsome =>
        rw [hsome]
        exact congrArg Prod.fst (Run.exec_bind_error (Prod.ext hrun rfl))

/-- The same for results, as computed attributes have them. -/
theorem bind_ofExcept {result : Authorizer Obj → Except Failure α}
    {rest : Authorizer Obj → α → Except Failure β}
    (h : PropagatesDenials domain fun authorizer => (Run.ofExcept (result authorizer) : Run σ α))
    (hrest : ∀ a, PropagatesDenials domain fun authorizer =>
      (Run.ofExcept (rest authorizer a) : Run σ β)) :
    PropagatesDenials domain fun authorizer =>
      (Run.ofExcept (result authorizer >>= rest authorizer) : Run σ β) := by
  have hsequence (authorizer : Authorizer Obj) :
      (Run.ofExcept (result authorizer >>= rest authorizer) : Run σ β) =
        Run.ofExcept (result authorizer) >>= fun a => Run.ofExcept (rest authorizer a) := by
    cases result authorizer <;> rfl
  simp only [hsequence]
  exact h.bind hrest

/-- Under an authorizer that allows more, nothing changes but for what was
denied. -/
theorem runsAgree {run : Authorizer Obj → Run σ α} (h : PropagatesDenials domain run)
    {first second : Authorizer Obj} (hwithin : first.Within second) {rel : α → α → Prop}
    (hrel : ∀ a, rel a a) :
    RunsAgree Failure.IsDenial rel Eq (run first) (run second) := by
  rintro s _ rfl
  obtain ⟨checks, outcome, hchecks⟩ := h s
  have hfirst := hchecks first
  split at hfirst
  next hnone =>
    have hsecond := hchecks second
    rw [hwithin.firstDenied?_eq_none hnone] at hsecond
    have hsame : (run second).exec s = (run first).exec s := hsecond.trans hfirst.symm
    have hself : AgreeIn Failure.IsDenial rel Eq ((run first).exec s) ((run first).exec s) :=
      RunsAgree.refl hrel (run first) s s rfl
    change AgreeIn _ _ _ ((run first).exec s) ((run second).exec s)
    rwa [hsame]
  next action subject _ =>
    have hpair : (run first).run.run s = (.error (.unauthorized action (subject.typeName domain)),
        ((run first).exec s).2) := Prod.ext hfirst rfl
    rw [hpair]
    exact .excuse ⟨action, _, rfl⟩ _ _

end PropagatesDenials

def Context.withAuthorizer (ctx : Context Obj σ) (authorizer : Authorizer Obj) : Context Obj σ :=
  { ctx with authorizer }

/-- Computed attributes that only pass on denials, when they are read from an
object under some authorizer. -/
def Descriptor.PropagatesDenials (scope : Scope Obj) (d : Descriptor Obj) : Prop :=
  ∀ name resolver, d.attribute? name = some (some resolver) → ∀ o args,
    FieldQuery.PropagatesDenials scope.domain fun authorizer =>
      (Run.ofExcept (Entity.field ⟨{ scope with authorizer }, o, d⟩ name args) : Run Unit _)

/-- Operations and computed attributes of registered types only pass on
denials. -/
structure Api.PropagatesDenials (api : Api Obj σ) (ctx : Context Obj σ) : Prop where
  operation : ∀ name operation, Fields.get? api.operations name = some operation →
    ∀ args hints, FieldQuery.PropagatesDenials ctx.domain fun authorizer =>
      operation ⟨name, args, hints, ctx.withAuthorizer authorizer⟩
  entity : ∀ typeId d, Fields.get? ctx.entities typeId = some d →
    d.PropagatesDenials ctx.toScope

/-- Computed attributes that only pass on denials, their own and those of the
attributes that they read. -/
def Resolver.PropagatesDenials (scope : Scope Obj) (resolver : Resolver Obj) : Prop :=
  ∀ o typeName attributes
    (field : Authorizer Obj → String → List (Value Obj) → Except Failure (Value Obj)),
    (∀ name args, FieldQuery.PropagatesDenials scope.domain fun authorizer =>
      (Run.ofExcept (field authorizer name args) : Run Unit _)) →
    ∀ args, FieldQuery.PropagatesDenials scope.domain fun authorizer =>
      (Run.ofExcept (resolver ⟨{ scope with authorizer }, o, typeName, attributes,
        field authorizer⟩ args) : Run Unit _)

/-- A descriptor may be checked one computed attribute at a time. -/
theorem Descriptor.propagatesDenials_of_resolvers {scope : Scope Obj} {d : Descriptor Obj}
    (h : ∀ name resolver, d.attribute? name = some (some resolver) →
      resolver.PropagatesDenials scope) : d.PropagatesDenials scope := by
  have hwithin (o : Obj) (depth : Nat) : ∀ name args,
      FieldQuery.PropagatesDenials scope.domain fun authorizer =>
        (Run.ofExcept (Entity.fieldWithin ⟨{ scope with authorizer }, o, d⟩ depth name args) :
          Run Unit _) := by
    induction depth with
    | zero => exact fun _ _ => .of_forall_eq fun _ _ => rfl
    | succ depth ih =>
        intro name args
        simp only [Entity.fieldWithin]
        cases hname : d.attribute? name with
        | none => exact .of_forall_eq fun _ _ => rfl
        | some entry =>
            cases entry with
            | none => exact .of_forall_eq fun _ _ => rfl
            | some resolver => exact h name resolver hname o _ _ _ ih args
  intro name resolver _ o args
  exact hwithin o (d.attributes.length + 1) name args

/-! Models. -/

namespace Model

theorem propagatesDenials_guarded (m : Model Obj σ) (ctx : Context Obj σ) (name : String)
    (args : List (Value Obj)) (hints sought : Hints) (action : Action)
    (act : Value Obj → Run σ (Value Obj)) :
    PropagatesDenials ctx.domain fun authorizer =>
      m.guarded ⟨name, args, hints, ctx.withAuthorizer authorizer⟩ action sought act := by
  refine .bind (.of_forall_eq fun _ _ => rfl) fun item => ?_
  refine .bind (.authorize ctx.toScope action (.ofRecord m.typeName item)) fun _ => ?_
  exact .of_forall_eq fun _ _ => rfl

/-- What a model does besides its one check has nothing to do with the
authorizer. -/
theorem propagatesDenials_operation (m : Model Obj σ) (ctx : Context Obj σ) (endpoint : Endpoint)
    (name : String) (args : List (Value Obj)) (hints : Hints) :
    PropagatesDenials ctx.domain fun authorizer =>
      m.operation endpoint ⟨name, args, hints, ctx.withAuthorizer authorizer⟩ := by
  have hguarded := m.propagatesDenials_guarded ctx name args hints
  cases endpoint with
  | listAll =>
      exact .bind (.authorize ctx.toScope .read (.type m.typeName)) fun _ =>
        .of_forall_eq fun _ _ => rfl
  | createOne =>
      exact .bind (.authorize ctx.toScope .create (.type m.typeName)) fun _ =>
        .of_forall_eq fun _ _ => rfl
  | showOne => exact hguarded hints .read pure
  | updateOne =>
      exact hguarded [] .update fun _ =>
        Run.ofExcept (paramsArg ctx m.updateHook (args[1]?.getD .null)) >>=
          m.repository.update (args[0]?.getD .null)
  | destroyOne => exact hguarded [] .destroy fun _ => m.repository.destroy (args[0]?.getD .null)

end Model

/-- APIs of models leave it to the descriptors. -/
theorem Api.OfModels.propagatesDenials {exposed : Model Obj σ → Prop} {api : Api Obj σ}
    (h : api.OfModels exposed) {ctx : Context Obj σ}
    (hentities : ∀ typeId d, Fields.get? ctx.entities typeId = some d →
      d.PropagatesDenials ctx.toScope) : api.PropagatesDenials ctx where
  operation := by
    intro name operation hname args hints
    obtain ⟨m, endpoint, -, rfl⟩ := h.all _ (Fields.mem_of_get? hname)
    exact m.propagatesDenials_operation ctx endpoint name args hints
  entity := hentities

end FieldQuery
