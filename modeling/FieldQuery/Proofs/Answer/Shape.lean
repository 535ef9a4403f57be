import FieldQuery.Proofs.Answer.Members
import FieldQuery.Proofs.Api.Effects
import FieldQuery.Proofs.Simulation.Mode
import Mathlib.Data.List.Forall2

/-!
The shape of an answer is that of its selection. A value renders to null, item
by item, or to an object with the keys of the selection; and if no level of the
selection repeats a key, what stands under a key with a group has the shape of
the group.
-/

namespace FieldQuery

variable {Obj σ : Type}

namespace Selection

/-- The selection and the groups in it, at all levels. -/
def levels (s : Selection) : List Selection := s :: (all s).filterMap Call.nested

/-- No level repeats a key. -/
def DistinctKeys (s : Selection) : Prop := ∀ level ∈ s.levels, (level.map Call.key).Nodup

end Selection

/-- Null, an array of such documents, or an object with just the keys of a
selection, in which the shapes of its groups stand under the keys of the
groups. -/
inductive Json.Shaped : Selection → Json → Prop
  | null (s : Selection) : Shaped s .null
  | array {s : Selection} {items : List Json} (hitems : ∀ item ∈ items, Shaped s item) :
      Shaped s (.array items)
  | object {s : Selection} {members : Fields Json} (hkeys : Fields.names members = s.keys)
      (hnested : ∀ c ∈ s, ∀ nested, c.nested = some nested →
        ∀ v, Fields.get? members c.key = some v → Shaped nested v) :
      Shaped s (.object members)

/-- Renderings of a value against a selection, level by level. An item that
may not be rendered is null. -/
inductive Value.Rendered (ctx : Context Obj σ) (s : Selection) : Value Obj → Json → Prop
  | null : Rendered ctx s .null .null
  | list {items : List (Value Obj)} {outs : List Json}
      (hitems : List.Forall₂ (fun item out => item.render ctx (some s) = .ok out ∨
        out = .null ∧ ∃ e, item.render ctx (some s) = .error e ∧ e.isContained = true)
        items outs) :
      Rendered ctx s (.list items) (.array outs)
  | map {fields : Fields (Value Obj)} {members : Fields Json}
      (hkeys : Fields.names members = s.keys) : Rendered ctx s (.map fields) (.object members)
  | object {o : Obj} {members : Fields Json} (hkeys : Fields.names members = s.keys) :
      Rendered ctx s (.object o) (.object members)

variable {ctx : Context Obj σ} {source : Source Obj} {s : Selection} {out : Json}

/-- What is contained is a result, or null in the place of a failure. -/
theorem contain_ok {result : Except Failure Json} (h : ctx.contain result = .ok out) :
    result = .ok out ∨ out = .null ∧ ∃ e, result = .error e ∧ e.isContained = true := by
  cases result with
  | ok v => exact .inl h
  | error e =>
      by_cases hcontained : e.isContained && ctx.mode == .lenient
      · have hnull : ctx.contain (.error e) = .ok .null := if_pos hcontained
        rw [hnull] at h
        exact .inr ⟨(Except.ok.inj h).symm, e, rfl, (Bool.and_eq_true_iff.mp hcontained).1⟩
      · have herror : ctx.contain (.error e) = .error e := if_neg hcontained
        rw [herror] at h
        cases h

theorem renderItems_ok {fields : Source Obj → Except Failure Json} {items : List (Value Obj)}
    {outs : List Json} (h : Value.renderItems ctx fields items = .ok outs) :
    List.Forall₂ (fun item out => ctx.contain (item.renderWith ctx fields) = .ok out)
      items outs := by
  induction items generalizing outs with
  | nil =>
      obtain rfl := Except.ok.inj h
      exact .nil
  | cons v rest ih =>
      obtain ⟨item, hitem, hrest⟩ := exists_of_bind_ok h
      obtain ⟨more, hmore, hsame⟩ := exists_of_bind_ok hrest
      obtain rfl := Except.ok.inj hsame
      exact .cons hitem (ih hmore)

/-- Calls that are rendered give an answer each, and these are merged. -/
theorem Source.exists_answers_of_renderCalls {calls : List Call} {members result : Fields Json}
    (h : source.renderCalls ctx members calls = .ok result) :
    ∃ answers : List (Call × Json), answers.map Prod.fst = calls ∧
      result = mergeAnswers .union members answers ∧
      ∀ answer ∈ answers, ctx.contain (source.renderCall ctx answer.1) = .ok answer.2 := by
  induction calls generalizing members with
  | nil => exact ⟨[], rfl, (Except.ok.inj h).symm, fun _ hnone => absurd hnone List.not_mem_nil⟩
  | cons c rest ih =>
      obtain ⟨v, hcall, hrest⟩ := exists_of_bind_ok h
      obtain ⟨answers, rfl, rfl, hanswers⟩ := ih hrest
      exact ⟨(c, v) :: answers, rfl, rfl, List.forall_mem_cons.mpr ⟨hcall, hanswers⟩⟩

theorem Source.names_renderCalls {members : Fields Json}
    (h : source.renderCalls ctx [] s = .ok members) : Fields.names members = s.keys := by
  obtain ⟨answers, hcalls, rfl, -⟩ := exists_answers_of_renderCalls h
  exact names_mergeAnswers_nil hcalls

/-- A value that can be rendered is rendered level by level. -/
theorem Value.rendered_of_render {v : Value Obj} (h : v.render ctx (some s) = .ok out) :
    v.Rendered ctx s out := by
  have hobject {source : Source Obj}
      (hfields : (source.renderCalls ctx [] s).map Json.object = .ok out) :
      ∃ members, out = .object members ∧ Fields.names members = s.keys := by
    obtain ⟨members, hmembers, rfl⟩ := exists_of_map_ok hfields
    exact ⟨members, rfl, Source.names_renderCalls hmembers⟩
  cases v with
  | null =>
      obtain rfl := Except.ok.inj h
      exact .null
  | map fields =>
      obtain ⟨members, rfl, hkeys⟩ := hobject h
      exact .map hkeys
  | list items =>
      obtain ⟨outs, houts, rfl⟩ := exists_of_map_ok h
      exact .list ((renderItems_ok houts).imp fun _ _ => contain_ok)
  | object o =>
      obtain ⟨e, -, hfields⟩ := exists_of_bind_ok h
      obtain ⟨members, rfl, hkeys⟩ := hobject hfields
      exact .object hkeys
  | bool | int | float | string => cases h

namespace Json.Shaped

/-- Merged answers have the shape of a selection without a repeated key if each
of them has the shape of its group. -/
theorem of_answers {policy : MergePolicy} {answers : List (Call × Json)}
    (hcalls : answers.map Prod.fst = s) (hdistinct : (s.map Call.key).Nodup)
    (hshaped : ∀ answer ∈ answers, ∀ nested, answer.1.nested = some nested →
      Shaped nested answer.2) :
    Shaped s (.object (mergeAnswers policy [] answers)) := by
  refine .object (names_mergeAnswers_nil hcalls) ?_
  subst hcalls
  rw [List.map_map] at hdistinct
  have hget : ∀ answer ∈ answers,
      Fields.get? (mergeAnswers policy [] answers) answer.1.key = some answer.2 :=
    get?_mergeAnswers hdistinct fun _ _ => List.not_mem_nil
  rintro c hc nested hnested v hv
  obtain ⟨answer, hanswer, rfl⟩ := List.mem_map.mp hc
  rw [hget answer hanswer] at hv
  obtain rfl := Option.some.inj hv
  exact hshaped answer hanswer nested hnested

/-- A contained result has the shape of the result. -/
theorem of_contain {result : Except Failure Json} (h : ctx.contain result = .ok out)
    (hshaped : result = .ok out → Shaped s out) : Shaped s out := by
  rcases contain_ok h with hok | ⟨rfl, -⟩
  · exact hshaped hok
  · exact .null s

mutual

/-- Rendering shapes a value if its fields are shaped. -/
theorem of_renderWith {fields : Source Obj → Except Failure Json}
    (hfields : ∀ source out, fields source = .ok out → Shaped s out) :
    (v : Value Obj) → ∀ out, v.renderWith ctx fields = .ok out → Shaped s out
  | .null, out, h => by
      obtain rfl := Except.ok.inj h
      exact .null s
  | .map m, out, h => hfields _ out h
  | .list items, out, h => by
      obtain ⟨outs, houts, rfl⟩ := exists_of_map_ok h
      exact .array (of_renderItems hfields items outs houts)
  | .object o, out, h => by
      obtain ⟨e, -, he⟩ := exists_of_bind_ok h
      exact hfields _ out he
  | .bool _, _, h | .int _, _, h | .float _, _, h | .string _, _, h => by cases h

theorem of_renderItems {fields : Source Obj → Except Failure Json}
    (hfields : ∀ source out, fields source = .ok out → Shaped s out) :
    (items : List (Value Obj)) → ∀ outs, Value.renderItems ctx fields items = .ok outs →
      ∀ out ∈ outs, Shaped s out
  | [], outs, h => by
      obtain rfl := Except.ok.inj h
      exact fun _ hnone => absurd hnone List.not_mem_nil
  | v :: rest, outs, h => by
      obtain ⟨item, hitem, hrest⟩ := exists_of_bind_ok h
      obtain ⟨more, hmore, hsame⟩ := exists_of_bind_ok hrest
      obtain rfl := Except.ok.inj hsame
      refine List.forall_mem_cons.mpr ⟨?_, of_renderItems hfields rest more hmore⟩
      exact of_contain hitem (of_renderWith hfields v item)

end

/-- A call is rendered to the shape of its group. -/
def OfCall (ctx : Context Obj σ) (c : Call) : Prop :=
  ∀ nested, c.nested = some nested → ∀ (source : Source Obj) out,
    source.renderCall ctx c = .ok out → Shaped nested out

theorem of_render (hdistinct : (s.map Call.key).Nodup) (hcalls : ∀ c ∈ s, OfCall ctx c)
    {v : Value Obj} (h : v.render ctx (some s) = .ok out) : Shaped s out := by
  refine of_renderWith (fun source out hfields => ?_) v out h
  obtain ⟨members, hmembers, rfl⟩ := exists_of_map_ok hfields
  obtain ⟨answers, hanswers, rfl, hcontained⟩ := Source.exists_answers_of_renderCalls hmembers
  refine of_answers hanswers hdistinct fun answer hanswer nested hnested => ?_
  have hmem : answer.1 ∈ s := hanswers ▸ List.mem_map_of_mem hanswer
  exact of_contain (hcontained answer hanswer) (hcalls answer.1 hmem nested hnested source _)

mutual

theorem ofCall (ctx : Context Obj σ) :
    (c : Call) → (∀ level ∈ c.all.filterMap Call.nested, (level.map Call.key).Nodup) →
      OfCall ctx c
  | ⟨name, label, params, none⟩, _ => fun _ hnone => nomatch hnone
  | ⟨name, label, params, some nested⟩, hdistinct => by
      rintro _ ⟨⟩ source out h
      have hbelow : ∀ level ∈ (Selection.all nested).filterMap Call.nested,
          (level.map Call.key).Nodup := fun level hlevel => hdistinct level (.tail _ hlevel)
      obtain ⟨v, -, hrender⟩ := exists_of_bind_ok h
      exact of_render (hdistinct nested (.head _)) (ofCall_mem ctx nested hbelow) hrender

theorem ofCall_mem (ctx : Context Obj σ) :
    (calls : List Call) →
      (∀ level ∈ (Selection.all calls).filterMap Call.nested, (level.map Call.key).Nodup) →
        ∀ c ∈ calls, OfCall ctx c
  | [], _ => fun _ hnone => absurd hnone List.not_mem_nil
  | c :: rest, hdistinct => by
      rw [Selection.all, List.filterMap_append] at hdistinct
      refine List.forall_mem_cons.mpr ⟨?_, ?_⟩
      · exact ofCall ctx c fun level hlevel => hdistinct level (List.mem_append_left _ hlevel)
      · exact ofCall_mem ctx rest fun level hlevel =>
          hdistinct level (List.mem_append_right _ hlevel)

end

/-- Rendering against a selection that repeats no key gives its shape. -/
theorem of_distinctKeys (hdistinct : s.DistinctKeys) {v : Value Obj}
    (h : v.render ctx (some s) = .ok out) : Shaped s out := by
  obtain ⟨hlevel, hbelow⟩ := List.forall_mem_cons.mp hdistinct
  exact of_render hlevel (ofCall_mem ctx s hbelow) h

end Json.Shaped

/-- The groups of a selection that repeats no key do not repeat one either. -/
theorem Selection.DistinctKeys.nested (h : s.DistinctKeys) {c : Call} (hc : c ∈ s)
    {nested : Selection} (hnested : c.nested = some nested) : nested.DistinctKeys := by
  have hlevels : nested.levels = c.all.filterMap Call.nested := by
    obtain ⟨name, label, params, _⟩ := c
    cases hnested
    rfl
  intro level hlevel
  rw [hlevels] at hlevel
  obtain ⟨d, hd, hgroup⟩ := List.mem_filterMap.mp hlevel
  exact h level (.tail _ (List.mem_filterMap.mpr ⟨d, all_subset hc hd, hgroup⟩))

namespace Api

variable {api : Api Obj σ} {st st' : σ}

theorem render_of_resolve {c : Call} {nested : Selection} (hnested : c.nested = some nested)
    (h : (api.resolve ctx c).run.run st = (.ok out, st')) :
    ∃ v : Value Obj, v.render ctx (some nested) = .ok out := by
  obtain ⟨v, s₁, -, hrest⟩ := exists_of_run_bind_ok h
  simp only [hnested] at hrest
  obtain ⟨loaded, s₂, -, hrender⟩ := exists_of_run_bind_ok hrest
  refine ⟨loaded, ?_⟩
  cases hloaded : loaded.render ctx (some nested) with
  | error e =>
      rw [hloaded] at hrender
      cases hrender
  | ok v =>
      rw [hloaded] at hrender
      cases hrender
      rfl

/-- The answer of a call is what its group renders to, or null. -/
theorem render_of_answer {c : Call} {nested : Selection} (hnested : c.nested = some nested)
    (h : (api.answer ctx c).exec st = (.ok out, st')) :
    out = .null ∨ ∃ v : Value Obj, v.render ctx (some nested) = .ok out := by
  obtain ⟨result, s₁, hresolve⟩ : ∃ result s₁, (api.resolve ctx c).run.run st = (result, s₁) :=
    ⟨_, _, rfl⟩
  simp only [answer, Run.exec, ExceptT.run_mk, StateT.run_bind, hresolve] at h
  rcases result with (e | e) | v
  · cases h
  · have hcontained : ctx.contain (.error e) = .ok out := congrArg Prod.fst h
    rcases contain_ok hcontained with herror | ⟨hnull, -⟩
    · cases herror
    · exact .inl hnull
  · cases h
    exact .inr (render_of_resolve hnested hresolve)

theorem exists_answers_of_executeCalls {calls : List Call} {members result : Fields Json}
    (h : (api.executeCalls ctx members calls).exec st = (.ok result, st')) :
    ∃ answers : List (Call × Json), answers.map Prod.fst = calls ∧
      result = mergeAnswers .replaceArrays members answers ∧
      ∀ answer ∈ answers, ∃ s₁ s₂, (api.answer ctx answer.1).exec s₁ = (.ok answer.2, s₂) := by
  induction calls generalizing members st with
  | nil =>
      cases h
      exact ⟨[], rfl, rfl, fun _ hnone => absurd hnone List.not_mem_nil⟩
  | cons c rest ih =>
      obtain ⟨_, s₁, -, hcall⟩ := exists_of_run_bind_ok h
      obtain ⟨v, s₂, hanswer, hrest⟩ := exists_of_run_bind_ok hcall
      obtain ⟨answers, rfl, rfl, hanswers⟩ := ih hrest
      exact ⟨(c, v) :: answers, rfl, rfl, List.forall_mem_cons.mpr ⟨⟨s₁, s₂, hanswer⟩, hanswers⟩⟩

theorem names_execute {members : Fields Json}
    (h : (api.execute ctx s).exec st = (.ok members, st')) : Fields.names members = s.keys := by
  obtain ⟨answers, hcalls, rfl, -⟩ := exists_answers_of_executeCalls h
  exact names_mergeAnswers_nil hcalls

theorem shaped_execute (hdistinct : s.DistinctKeys) {members : Fields Json}
    (h : (api.execute ctx s).exec st = (.ok members, st')) : Json.Shaped s (.object members) := by
  obtain ⟨answers, hcalls, rfl, hanswers⟩ := exists_answers_of_executeCalls h
  refine .of_answers hcalls (hdistinct s (.head _)) fun answer hanswer nested hnested => ?_
  have hmem : answer.1 ∈ s := hcalls ▸ List.mem_map_of_mem hanswer
  obtain ⟨s₁, s₂, hexec⟩ := hanswers answer hanswer
  rcases render_of_answer hnested hexec with hnull | ⟨v, hrender⟩
  · rw [hnull]
    exact .null nested
  · exact .of_distinctKeys (hdistinct.nested hmem hnested) hrender

end Api

/-- Whatever can be rendered against a selection, and whatever a request for it
is answered with, has its shape: at the top in any case, and at all levels if
no level repeats a key. -/
theorem answer_shape (ctx : Context Obj σ) (s : Selection) :
    (∀ (v : Value Obj) out, v.render ctx (some s) = .ok out →
      v.Rendered ctx s out ∧ (s.DistinctKeys → Json.Shaped s out)) ∧
    ∀ (api : Api Obj σ) st st' members, (api.execute ctx s).exec st = (.ok members, st') →
      Fields.names members = s.keys ∧ (s.DistinctKeys → Json.Shaped s (.object members)) := by
  constructor
  · intro v out h
    exact ⟨Value.rendered_of_render h, fun hdistinct => .of_distinctKeys hdistinct h⟩
  · intro api st st' members h
    exact ⟨Api.names_execute h, fun hdistinct => Api.shaped_execute hdistinct h⟩

namespace Blog

/-- A list with an author, a post that may not be read, and a list of its own
with an item that takes no selection. -/
def shelf : Value Host.Record :=
  .list [.object (author "first"), .object (post "first"), .list [.null, .bool true]]

theorem details_shape :
    details.DistinctKeys ∧
      (∃ out, shelf.render greeter (some [.ofName "greeting"]) = .ok out ∧
        shelf.Rendered greeter [.ofName "greeting"] out) ∧
      ∃ members, ((api "first").execute greeter details).exec () = (.ok members, ()) ∧
        Fields.names members = ["user", "missing"] ∧ Json.Shaped details (.object members) := by
  have hdistinct : details.DistinctKeys := by
    unfold Selection.DistinctKeys
    decide +kernel
  obtain ⟨out, hshelf⟩ : ∃ out, shelf.render greeter (some [.ofName "greeting"]) = .ok out :=
    ⟨_, rfl⟩
  obtain ⟨members, hexecute⟩ : ∃ members,
      ((api "first").execute greeter details).exec () = (.ok members, ()) := ⟨_, rfl⟩
  obtain ⟨hkeys, hshaped⟩ := (answer_shape greeter details).2 (api "first") () () members hexecute
  have hrendered := ((answer_shape greeter [.ofName "greeting"]).1 shelf out hshelf).1
  exact ⟨hdistinct, ⟨out, hshelf, hrendered⟩, members, hexecute, hkeys, hshaped hdistinct⟩

end Blog

end FieldQuery
