import FieldQuery.Access.Policy
import FieldQuery.Proofs.Access.Denials
import FieldQuery.Proofs.Simulation.Exposure

/-!
Further grants. By a grant a policy only ever allows more. A strict request
that succeeds was denied nothing, so under a policy with further grants it goes
the same way, as long as the host's own code only passes on denials.
-/

namespace FieldQuery

variable {Obj σ : Type}

namespace Policy

theorem grants_allow (p : Policy) (granted typeName : String) (actions : List Action)
    (action : Action) : (p.allow granted actions).grants typeName action =
      (p.grants typeName action || (granted == typeName && actions.contains action)) := by
  unfold grants allow
  rw [Fields.get?_put]
  by_cases hname : granted = typeName
  · subst hname
    cases Fields.get? p.rules granted <;> simp
  · simp [hname]

/-- Grants one after the other. -/
def allowEach (p : Policy) (rules : List (String × List Action)) : Policy :=
  rules.foldl (fun p (typeName, actions) => p.allow typeName actions) p

theorem within_allow (p : Policy) (domain : Domain Obj) (typeName : String)
    (actions : List Action) :
    (p.authorizer domain).Within ((p.allow typeName actions).authorizer domain) := by
  intro action subject hallowed
  simp only [authorizer, allows, grants_allow, Bool.or_eq_true] at hallowed ⊢
  exact hallowed.imp .inl .inl

theorem within_allowEach (p : Policy) (domain : Domain Obj)
    (rules : List (String × List Action)) :
    (p.authorizer domain).Within ((p.allowEach rules).authorizer domain) := by
  induction rules generalizing p with
  | nil => exact fun _ _ hallowed => hallowed
  | cons rule rules ih =>
      intro action subject hallowed
      exact ih (p.allow rule.1 rule.2) action subject
        (p.within_allow domain rule.1 rule.2 action subject hallowed)

end Policy

namespace Api.PropagatesDenials

variable {api : Api Obj σ} {ctx : Context Obj σ} {first second : Authorizer Obj}

theorem field_agree (h : api.PropagatesDenials ctx) (hwithin : first.Within second) {o : Obj}
    {d : Descriptor Obj} (hd : ctx.descriptor? o = some d) (name : String)
    (args : List (Value Obj)) :
    Agree Failure.IsDenial (Value.Corresponds Eq)
      (Entity.field ⟨(ctx.withAuthorizer first).toScope, o, d⟩ name args)
      (Entity.field ⟨(ctx.withAuthorizer second).toScope, o, d⟩ name args) := by
  cases hname : d.attribute? name with
  | some entry =>
      cases entry with
      | some resolver =>
          have hread := h.entity _ d hd name resolver hname o args
          exact (hread.runsAgree hwithin Value.corresponds_refl () () rfl).fst
      | none =>
          simp only [Entity.field, Entity.fieldWithin, hname]
          exact .refl Value.corresponds_refl _
  | none =>
      simp only [Entity.field, Entity.fieldWithin, hname]
      exact .error _

theorem open?_agree (h : api.PropagatesDenials ctx) (hwithin : first.Within second) (o : Obj) :
    Agree Failure.IsDenial (Entity.Corresponds Failure.IsDenial Eq)
      (Entity.open? (ctx.withAuthorizer first) o) (Entity.open? (ctx.withAuthorizer second) o) := by
  have hdescriptor (authorizer : Authorizer Obj) :
      (ctx.withAuthorizer authorizer).descriptor? o = ctx.descriptor? o := rfl
  cases hd : ctx.descriptor? o with
  | none =>
      rw [Entity.open?_of_unregistered ((hdescriptor first).trans hd),
        Entity.open?_of_unregistered ((hdescriptor second).trans hd)]
      exact .error _
  | some d =>
      have hfirst := (hdescriptor first).trans hd
      cases hread : first .read (.object o) with
      | false =>
          rw [Entity.open?_of_denied hfirst hread]
          exact .excuse ⟨_, _, rfl⟩ _
      | true =>
          rw [Entity.open?_of_readable hfirst hread,
            Entity.open?_of_readable ((hdescriptor second).trans hd) (hwithin _ _ hread)]
          refine .ok fun name args args' hargs => ?_
          rw [← hargs.eq]
          exact h.field_agree hwithin hd name args

/-- A strict request is followed by the same one under an authorizer that
allows more. -/
theorem simulates (h : api.PropagatesDenials ctx) (hstrict : ctx.mode = .strict)
    (hwithin : first.Within second) :
    api.Simulates Failure.IsDenial Eq (fun _ _ => True) Eq (ctx.withAuthorizer first) api
      (ctx.withAuthorizer second) where
  context :=
    { typeName := by
        rintro o _ rfl
        rfl
      prefetch := by
        rintro o _ hints rfl
        exact rel_refl Value.corresponds_refl _
      field := by
        rintro o _ name - rfl args args' hargs
        rw [← hargs.eq]
        exact rel_refl Value.corresponds_refl _
      opened := by
        rintro o _ rfl
        exact h.open?_agree hwithin o
      params := Value.fieldsCorrespond_refl _
      contain := fun e => .of_eq rfl
      raise := fun e _ => by simp [Scope.contain, Context.withAuthorizer, hstrict] }
  operation := by
    intro name
    cases hname : Fields.get? api.operations name with
    | none => exact .none
    | some operation =>
        refine .some fun args args' hints hargs => ?_
        rw [← hargs.eq]
        exact (h.operation name operation hname args hints).runsAgree hwithin Value.corresponds_refl
  id := by
    rintro o _ rfl
    exact rel_refl Value.corresponds_refl _
  dataAccess := by
    refine rel_refl (fun access typeName id id' hints hid => ?_) _
    rw [← hid.eq]
    exact .refl (rel_refl Value.corresponds_refl) _
  deadline := rfl
  hidden := by
    rintro name _ ⟨action, subject, rfl⟩
    exact ⟨action, subject, rfl⟩

end Api.PropagatesDenials

def Context.withPolicy (ctx : Context Obj σ) (p : Policy) : Context Obj σ :=
  ctx.withAuthorizer (p.authorizer ctx.domain)

/-- Whatever a strict request answers under a policy, and whatever it leaves
behind, further grants change nothing about it. -/
theorem execute_of_further_grants {api : Api Obj σ} {ctx : Context Obj σ}
    (h : api.PropagatesDenials ctx) (hstrict : ctx.mode = .strict) (p : Policy)
    (rules : List (String × List Action)) (selection : Selection) (s : σ)
    {members : Fields Json}
    (hok : ((api.execute (ctx.withPolicy p) selection).exec s).1 = .ok members) :
    (api.execute (ctx.withPolicy (p.allowEach rules)) selection).exec s =
      (.ok members, ((api.execute (ctx.withPolicy p) selection).exec s).2) := by
  have hsimulates := h.simulates hstrict (p.within_allowEach ctx.domain rules)
  have hagree : AgreeIn Failure.IsDenial Eq Eq
      ((api.execute (ctx.withPolicy p) selection).exec s)
      ((api.execute (ctx.withPolicy (p.allowEach rules)) selection).exec s) :=
    hsimulates.execute_agree rfl fun _ _ => trivial
  generalize (api.execute (ctx.withPolicy p) selection).exec s = before at hok hagree ⊢
  generalize (api.execute (ctx.withPolicy (p.allowEach rules)) selection).exec s = after at hagree ⊢
  cases hagree with
  | ok hmembers hstates =>
      subst hmembers hstates
      rw [Except.ok.inj hok]
  | error e _ => cases hok
  | excuse _ _ _ => cases hok

namespace Notebook

/-- Notes as objects, with a summary for those who may read summaries. -/
def noteEntity : Descriptor Host.Record :=
  ((Descriptor.ofType "Note").withAttributes ["title"]).withResolver "summary" fun view args => do
    view.scope.authorize .read (.type "Summary")
    view.field "title" args

def noteModel : Model Host.Record Host.World :=
  .ofRepository "Note" "note" "notes" (Host.Table.mk 0 (some "Note") none []).repository

def desk : Api Host.Record Host.World := Api.empty.mount "desk" (Api.empty.withModel noteModel)

def deskWorld : Host.World :=
  { Host.World.empty with
    tables := [[.object ⟨0, "Note", some (.int 1), none, [("title", .string "first")], []⟩]] }

def reader : Context Host.Record Host.World :=
  { Context.ofDomain Host.Record.domain with
    mode := .strict
    entities := [("Note", noteEntity)] }

def reading : Policy := .ofRules [("Note", [.read]), ("Summary", [.read])]

/-- Grants that repeat one, add some, and reach every type. -/
def furtherRules : List (String × List Action) :=
  [("Note", [.destroy, .read]), ("*", [.update]), ("*", [.read, .update])]

def summaries : Selection :=
  [⟨"desk.notes", none, none, some [.ofName "title", .ofName "summary"]⟩,
    ⟨"desk.note.summary", none, some [.number (.ofNat 1)], none⟩]

theorem desk_propagatesDenials : desk.PropagatesDenials reader := by
  have hmodels : desk.OfModels (noteModel = ·) := .mount .empty (.withModel .empty rfl) "desk"
  refine hmodels.propagatesDenials fun typeName d hd => ?_
  by_cases hnote : "Note" = typeName
  · rw [reader, Fields.get?, if_pos hnote] at hd
    cases hd
    refine Descriptor.propagatesDenials_of_resolvers fun name resolver hname => ?_
    rw [noteEntity, Descriptor.attribute?, Descriptor.withResolver, Fields.get?_put] at hname
    split at hname
    next =>
      cases hname
      intro o entityType attributes field hfield args
      exact .bind_ofExcept (.authorize reader.toScope .read (.type "Summary")) fun _ =>
        hfield "title" args
    next =>
      cases (Descriptor.isPlain_ofType "Note").withAttributes _ name _ hname
  · simp [reader, Fields.get?, hnote] at hd

theorem summaries_after_grants :
    let note := Json.object [("title", .string "first"), ("summary", .string "first")]
    let answer := [("desk.notes", Json.array [note]), ("desk.note.summary", .string "first")]
    desk.PropagatesDenials reader ∧ reader.mode = .strict ∧
      ((desk.execute (reader.withPolicy reading) summaries).exec deskWorld).1 = .ok answer ∧
      (desk.execute (reader.withPolicy (reading.allowEach furtherRules)) summaries).exec deskWorld =
        (.ok answer, ((desk.execute (reader.withPolicy reading) summaries).exec deskWorld).2) := by
  intro note answer
  have hok : ((desk.execute (reader.withPolicy reading) summaries).exec deskWorld).1 =
      .ok answer := rfl
  exact ⟨desk_propagatesDenials, rfl, hok,
    execute_of_further_grants desk_propagatesDenials rfl reading furtherRules summaries deskWorld
      hok⟩

end Notebook

end FieldQuery
