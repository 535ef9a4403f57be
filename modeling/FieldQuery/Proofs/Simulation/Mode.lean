import FieldQuery.Proofs.Simulation.Exposure

/-!
Strict and lenient requests. As long as the host's own code does not look at
the mode, a lenient request goes the way of the strict one until the strict
one raises a contained failure.
-/

namespace FieldQuery

variable {Obj σ : Type}

def Context.inMode (ctx : Context Obj σ) (mode : Mode) : Context Obj σ := { ctx with mode }

abbrev Failure.Contained (e : Failure) : Prop := e.isContained = true

/-- Computed attributes that do not look at the mode. -/
def Descriptor.ModeBlind (d : Descriptor Obj) : Prop :=
  ∀ name resolver, d.attribute? name = some (some resolver) →
    ∀ view args mode,
      resolver { view with scope := { view.scope with mode } } args = resolver view args

/-- Operations and computed attributes that do not look at the mode. -/
structure Api.ModeBlind (api : Api Obj σ) (ctx : Context Obj σ) : Prop where
  operation : ∀ name operation, Fields.get? api.operations name = some operation →
    ∀ inv mode, operation { inv with ctx := inv.ctx.inMode mode } = operation inv
  entity : ∀ typeId d, Fields.get? ctx.entities typeId = some d → d.ModeBlind

/-- Attributes do not depend on the mode either, computed ones included. -/
theorem Entity.fieldWithin_inMode {scope : Scope Obj} {o : Obj} {d : Descriptor Obj}
    (h : d.ModeBlind) (mode : Mode) (depth : Nat) (name : String) (args : List (Value Obj)) :
    Entity.fieldWithin ⟨{ scope with mode }, o, d⟩ depth name args =
      Entity.fieldWithin ⟨scope, o, d⟩ depth name args := by
  induction depth generalizing name args with
  | zero => rfl
  | succ depth ih =>
      unfold Entity.fieldWithin
      dsimp only
      have hview : Entity.fieldWithin ⟨{ scope with mode }, o, d⟩ depth =
          Entity.fieldWithin ⟨scope, o, d⟩ depth := by
        funext name args
        exact ih name args
      split
      next => rfl
      next resolver hname =>
        rw [hview]
        exact h name resolver hname ⟨scope, o, d.typeName, d.attributeNames, _⟩ args mode
      next => rfl

theorem Context.contain_strict (ctx : Context Obj σ) (e : Failure) :
    (ctx.inMode .strict).contain (.error e) = .error e := by
  cases he : e.isContained <;> simp [Scope.contain, inMode, he]

/-- A failure is contained by both modes alike, or it is excused. -/
theorem Context.contain_agree (ctx : Context Obj σ) (e : Failure) :
    Agree Failure.Contained Eq (.error e)
      ((ctx.inMode .lenient).contain (.error e)) := by
  by_cases he : e.Contained
  · exact .excuse he _
  · have hlenient : (ctx.inMode .lenient).contain (.error e) = .error e := by
      simp [Scope.contain, he]
    rw [hlenient]
    exact .error e

namespace Api.ModeBlind

variable {api : Api Obj σ} {ctx : Context Obj σ}

theorem open?_agree (h : api.ModeBlind ctx) (excused : Failure → Prop) (first second : Mode)
    (o : Obj) :
    Agree excused (Entity.Corresponds excused Eq) (Entity.open? (ctx.inMode first) o)
      (Entity.open? (ctx.inMode second) o) := by
  unfold Entity.open?
  have hdescriptor (mode : Mode) : (ctx.inMode mode).descriptor? o = ctx.descriptor? o := rfl
  rw [hdescriptor, hdescriptor]
  cases hd : ctx.descriptor? o with
  | none => exact .error _
  | some d =>
      have hauthorize (mode : Mode) : (ctx.inMode mode).authorize .read (.object o) =
          ctx.authorize .read (.object o) := rfl
      dsimp only
      rw [hauthorize, hauthorize]
      cases ctx.authorize .read (.object o) with
      | error e => exact .error e
      | ok _ =>
          apply Agree.ok
          intro name args args' hargs
          have hfield (mode : Mode) : Entity.field ⟨(ctx.inMode mode).toScope, o, d⟩ name args =
              Entity.field ⟨ctx.toScope, o, d⟩ name args :=
            Entity.fieldWithin_inMode (h.entity _ d hd) mode _ name args
          rw [← hargs.eq, hfield, hfield]
          exact .refl Value.corresponds_refl _

/-- The strict request is followed by the lenient one. -/
theorem simulates (h : api.ModeBlind ctx) :
    api.Simulates Failure.Contained Eq (fun _ _ => True) Eq (ctx.inMode .strict) api
      (ctx.inMode .lenient) where
  context :=
    { typeName := by
        rintro o _ rfl
        rfl
      prefetch := by
        rintro o _ hints rfl
        exact rel_refl Value.corresponds_refl _
      field := by
        rintro o _ name - rfl args args' hargs
        rw [← hargs.eq]
        exact rel_refl Value.corresponds_refl _
      opened := by
        rintro o _ rfl
        exact h.open?_agree _ _ _ o
      params := Value.fieldsCorrespond_refl _
      contain := by
        intro e
        rw [ctx.contain_strict e]
        exact ctx.contain_agree e
      raise := fun e _ => ctx.contain_strict e }
  operation := by
    intro name
    cases hname : Fields.get? api.operations name with
    | none => exact .none
    | some operation =>
        refine .some fun args args' hints hargs => ?_
        have hblind (mode : Mode) : operation ⟨name, args, hints, ctx.inMode mode⟩ =
            operation ⟨name, args, hints, ctx⟩ :=
          h.operation name operation hname ⟨name, args, hints, ctx⟩ mode
        rw [← hargs.eq, hblind, hblind]
        exact .refl Value.corresponds_refl _
  id := by
    rintro o _ rfl
    exact rel_refl Value.corresponds_refl _
  dataAccess := by
    refine rel_refl (fun access typeName id id' hints hid => ?_) _
    rw [← hid.eq]
    exact .refl (rel_refl Value.corresponds_refl) _
  deadline := rfl
  hidden := by
    intro name e he
    cases e <;> exact he

end Api.ModeBlind

/-- The two modes part only at contained failures: what a strict request
answers, a lenient one answers as well, and where the results differ, the
strict one is a contained failure. -/
theorem execute_strict_lenient {api : Api Obj σ} {ctx : Context Obj σ} (h : api.ModeBlind ctx)
    (selection : Selection) (s : σ) :
    let strict := (api.execute (ctx.inMode .strict) selection).exec s
    let lenient := (api.execute (ctx.inMode .lenient) selection).exec s
    (∀ members, strict.1 = .ok members → lenient = strict) ∧
      (∀ e, lenient.1 = .error e →
        ∃ e', strict.1 = .error e' ∧ (e' = e ∨ e'.isContained = true)) ∧
      ∀ members e, lenient.1 = .ok members → strict.1 = .error e → e.isContained = true := by
  intro strict lenient
  have hagree : AgreeIn Failure.Contained Eq Eq strict lenient :=
    h.simulates.execute_agree rfl fun _ _ => trivial
  generalize strict = strict at hagree ⊢
  generalize lenient = lenient at hagree ⊢
  cases hagree with
  | ok hmembers hstates =>
      subst hmembers hstates
      exact ⟨fun _ _ => rfl, by simp, by simp⟩
  | error e hstates =>
      exact ⟨by simp, fun e' he' => ⟨e, rfl, .inl (Except.error.inj he')⟩, by simp⟩
  | @excuse e he s lenient =>
      refine ⟨by simp, fun _ _ => ⟨e, rfl, .inr he⟩, ?_⟩
      rintro members e' - he'
      rwa [← Except.error.inj he']

namespace Blog

/-- Authors with a computed attribute beside the plain ones. -/
def greeter : Context Host.Record Unit :=
  { context denyPosts with
    entities :=
      [("User", ((Descriptor.ofType "User").withAttributes ["name", "post"]).withResolver "greeting"
        fun view _ => view.field "name" [])] }

theorem greeter_modeBlind : (api "first").ModeBlind greeter where
  operation := by
    intro name operation hname inv mode
    by_cases huser : "user" = name
    · rw [api, Fields.get?, if_pos huser] at hname
      cases hname
      rfl
    · simp [api, Fields.get?, huser] at hname
  entity := by
    intro typeName d hd name resolver hname view args mode
    by_cases huser : "User" = typeName
    · rw [greeter, Fields.get?, if_pos huser] at hd
      cases hd
      rw [Descriptor.attribute?, Descriptor.withResolver, Fields.get?_put] at hname
      split at hname
      next =>
        cases hname
        rfl
      next =>
        cases (Descriptor.isPlain_ofType "User").withAttributes _ name _ hname
    · simp [greeter, Fields.get?, huser] at hd

def details : Selection :=
  [⟨"user", none, none, some [.ofName "greeting", .ofName "email",
    ⟨"post", none, none, some [.ofName "title"]⟩]⟩, .ofName "missing"]

theorem details_strict_lenient :
    (api "first").ModeBlind greeter ∧
      (∀ members, (((api "first").execute (greeter.inMode .strict) details).exec ()).1 =
          .ok members →
        ((api "first").execute (greeter.inMode .lenient) details).exec () =
          ((api "first").execute (greeter.inMode .strict) details).exec ()) ∧
      (∀ e, (((api "first").execute (greeter.inMode .lenient) details).exec ()).1 = .error e →
        ∃ e', (((api "first").execute (greeter.inMode .strict) details).exec ()).1 = .error e' ∧
          (e' = e ∨ e'.isContained = true)) ∧
      ∀ members e,
        (((api "first").execute (greeter.inMode .lenient) details).exec ()).1 = .ok members →
          (((api "first").execute (greeter.inMode .strict) details).exec ()).1 = .error e →
            e.isContained = true :=
  ⟨greeter_modeBlind, execute_strict_lenient greeter_modeBlind details ()⟩

end Blog

end FieldQuery
