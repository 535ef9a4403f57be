import FieldQuery.Proofs.Api.Log
import FieldQuery.Proofs.Simulation.Api
import FieldQuery.Proofs.Text

/-!
Dispatch of a top-level call. The call goes to the operation bound to its name,
or else to the one bound to the longest beginning of its name before a dot, and
from the result of that on along the other segments. Only this operation runs,
and it runs once. If it refuses its caller, the request ends in every mode;
failures on the way stay with the call, and an attribute that is not reached is
reported as an unknown operation.
-/

namespace FieldQuery

variable {Obj σ : Type}

/-! Search by size, from the largest on. -/

theorem mem_sizes {size length : Nat} :
    size ∈ ((List.range length).drop 1).reverse ↔ 0 < size ∧ size < length := by
  rw [List.mem_reverse, List.range_eq_range', List.drop_range', List.mem_range'_1]
  omega

theorem findSome?_sizes_eq_some {β : Type} {f : Nat → Option β} {length : Nat} {b : β}
    (h : ((List.range length).drop 1).reverse.findSome? f = some b) :
    ∃ size, 0 < size ∧ size < length ∧ f size = some b ∧
      ∀ larger, size < larger → larger < length → f larger = none := by
  obtain ⟨before, size, after, hsizes, hsize, hbefore⟩ := List.findSome?_eq_some_iff.mp h
  have hmem : size ∈ ((List.range length).drop 1).reverse := by
    rw [hsizes]
    exact List.mem_append_right _ List.mem_cons_self
  obtain ⟨hpos, hlt⟩ := mem_sizes.mp hmem
  refine ⟨size, hpos, hlt, hsize, fun larger hlarger hlength => ?_⟩
  have hdescending : (((List.range length).drop 1).reverse).Pairwise (· > ·) :=
    List.pairwise_reverse.mpr (List.pairwise_lt_range.sublist (List.drop_sublist 1 _))
  rw [hsizes, List.pairwise_append, List.pairwise_cons] at hdescending
  have hlargerMem : larger ∈ before ++ size :: after :=
    hsizes ▸ mem_sizes.mpr ⟨Nat.lt_trans hpos hlarger, hlength⟩
  rcases List.mem_append.mp hlargerMem with hfirst | hrest
  · exact hbefore larger hfirst
  · rcases List.mem_cons.mp hrest with rfl | hafter
    · omega
    · have hsmaller := hdescending.2.1.1 larger hafter
      omega

namespace Api

variable {api : Api Obj σ} {ctx : Context Obj σ} {c : Call}

/-! The longest bound beginning of a name. -/

/-- A name goes on after a dot from a bound one, and from no longer bound one. -/
structure IsLongestPrefix (api : Api Obj σ) (name head : String) (operation : Operation Obj σ)
    (tail : String) : Prop where
  splits : name = head ++ "." ++ tail
  bound : Fields.get? api.operations head = some operation
  longest : ∀ longer rest, name = longer ++ "." ++ rest → head.length < longer.length →
    Fields.get? api.operations longer = none

/-- A beginning before a dot is made of the first segments. -/
theorem cut_of_splits {name head tail : String} (h : name = head ++ "." ++ tail) :
    (Text.segments head).length < (Text.segments name).length ∧
      Text.join "." ((Text.segments name).take (Text.segments head).length) = head := by
  rw [h, Text.segments_append]
  refine ⟨?_, ?_⟩
  · have hpos := Text.length_segments_pos tail
    rw [List.length_append]
    omega
  · rw [List.take_left, Text.join_segments]

theorem longestPrefix?_cases (api : Api Obj σ) (name : String) :
    (api.longestPrefix? (Text.segments name) = none ∧
      ∀ head tail, name = head ++ "." ++ tail → Fields.get? api.operations head = none) ∨
    ∃ head operation tail,
      api.longestPrefix? (Text.segments name) = some (head, operation, Text.segments tail) ∧
        api.IsLongestPrefix name head operation tail := by
  cases hfound : api.longestPrefix? (Text.segments name) with
  | none =>
      refine .inl ⟨rfl, fun head tail hname => ?_⟩
      obtain ⟨hlt, hhead⟩ := cut_of_splits hname
      have hnone := List.findSome?_eq_none_iff.mp hfound _
        (mem_sizes.mpr ⟨Text.length_segments_pos head, hlt⟩)
      rwa [hhead, Option.map_eq_none_iff] at hnone
  | some found =>
      obtain ⟨size, hpos, hlt, hsize, hlarger⟩ := findSome?_sizes_eq_some hfound
      obtain ⟨operation, hbound, hsame⟩ := Option.map_eq_some_iff.mp hsize
      obtain ⟨tail, hname, hdrop⟩ := Text.exists_of_cut hpos hlt
      rw [hdrop] at hsame
      -- A longer beginning has more segments, and its size was tried before.
      refine .inr ⟨_, operation, tail, congrArg some hsame.symm, hname, hbound, ?_⟩
      intro longer rest hlonger hlength
      obtain ⟨between, hbetween⟩ := Text.exists_of_longer (hname.symm.trans hlonger) hlength
      obtain ⟨hltLonger, hhead⟩ := cut_of_splits hlonger
      obtain ⟨hltHead, -⟩ := cut_of_splits hbetween
      have hcut := Text.length_segments_take hpos hlt
      have hnone := hlarger _ (hcut ▸ hltHead) hltLonger
      rwa [hhead, Option.map_eq_none_iff] at hnone

theorem IsLongestPrefix.unique {name head head' tail tail' : String}
    {operation operation' : Operation Obj σ} (h : api.IsLongestPrefix name head operation tail)
    (h' : api.IsLongestPrefix name head' operation' tail') :
    head = head' ∧ operation = operation' ∧ tail = tail' := by
  have hle : head'.length ≤ head.length := by
    by_contra hlt
    have hnone := h.longest head' tail' h'.splits (by omega)
    rw [h'.bound] at hnone
    cases hnone
  have hge : head.length ≤ head'.length := by
    by_contra hlt
    have hnone := h'.longest head tail h.splits (by omega)
    rw [h.bound] at hnone
    cases hnone
  have hsplits := h.splits.symm.trans h'.splits
  obtain ⟨rfl, rfl⟩ := Text.cut_unique hsplits (Nat.le_antisymm hge hle)
  exact ⟨rfl, Option.some.inj (h.bound.symm.trans h'.bound), rfl⟩

/-! Targets. -/

/-- What a call runs, how it is invoked, and the segments to follow from its
result on. -/
structure Target (Obj σ : Type) where
  operation : Operation Obj σ
  invocation : Invocation Obj σ
  rest : List String

/-- Where a call goes: to the operation of its name, with all that the call
brings along; else to that of the longest bound beginning of its name, without
hints; or nowhere. -/
inductive Targets (api : Api Obj σ) (ctx : Context Obj σ) (c : Call) :
    Option (Target Obj σ) → Prop
  | bound {operation : Operation Obj σ}
      (h : Fields.get? api.operations c.name = some operation) :
      Targets api ctx c (some ⟨operation, ⟨c.name, ctx.resolveParams c.args, c.hints, ctx⟩, []⟩)
  | dotted {head tail : String} {operation : Operation Obj σ}
      (hname : Fields.get? api.operations c.name = none)
      (h : api.IsLongestPrefix c.name head operation tail) :
      Targets api ctx c
        (some ⟨operation, ⟨head, ctx.resolveParams c.args, [], ctx⟩, Text.segments tail⟩)
  | unbound (hname : Fields.get? api.operations c.name = none)
      (h : ∀ head tail, c.name = head ++ "." ++ tail → Fields.get? api.operations head = none) :
      Targets api ctx c none

/-- Runs what a call goes to. What is not reached is reported under a name. -/
def perform (ctx : Context Obj σ) (name : String) : Option (Target Obj σ) → CallRun σ (Value Obj)
  | some target => do
      let v ← .ofOperation (target.operation target.invocation)
      .ofExcept (walk ctx name target.rest v)
  | none => .ofExcept (.error (.unknownOperation name))

theorem Targets.unique {target other : Option (Target Obj σ)} (h : api.Targets ctx c target)
    (hother : api.Targets ctx c other) : other = target := by
  cases h with
  | bound h =>
      cases hother with
      | bound hother => rw [Option.some.inj (hother.symm.trans h)]
      | dotted hname | unbound hname => simp [h] at hname
  | dotted hname h =>
      cases hother with
      | bound hother => simp [hname] at hother
      | dotted _ hother =>
          obtain ⟨rfl, rfl, rfl⟩ := h.unique hother
          rfl
      | unbound _ hother =>
          have hbound := h.bound
          simp [hother _ _ h.splits] at hbound
  | unbound hname h =>
      cases hother with
      | bound hother => simp [hname] at hother
      | dotted _ hother =>
          have hbound := hother.bound
          simp [h _ _ hother.splits] at hbound
      | unbound => rfl

/-- Every call goes somewhere or nowhere, and does what its target does. -/
theorem exists_targets (api : Api Obj σ) (ctx : Context Obj σ) (c : Call) :
    ∃ target, api.Targets ctx c target ∧ api.invoke ctx c = perform ctx c.name target ∧
      api.bound? ctx c = target.map fun target => (target.operation, target.invocation) := by
  have hpath : c.path = Text.segments c.name := rfl
  unfold invoke bound?
  dsimp only
  cases hname : Fields.get? api.operations c.name with
  | some operation =>
      refine ⟨_, .bound hname, ?_, rfl⟩
      exact (bind_pure _).symm
  | none =>
      rw [hpath]
      rcases api.longestPrefix?_cases c.name with
        ⟨hnone, hunbound⟩ | ⟨head, operation, tail, hsome, hlongest⟩
      · rw [hnone]
        exact ⟨none, .unbound hname hunbound, rfl, rfl⟩
      · rw [hsome]
        exact ⟨_, .dotted hname hlongest, rfl, rfl⟩

theorem Targets.invoke_eq {target : Option (Target Obj σ)} (h : api.Targets ctx c target) :
    api.invoke ctx c = perform ctx c.name target := by
  obtain ⟨other, hother, hinvoke, -⟩ := api.exists_targets ctx c
  rw [hinvoke, h.unique hother]

theorem Targets.bound?_eq {target : Option (Target Obj σ)} (h : api.Targets ctx c target) :
    api.bound? ctx c = target.map fun target => (target.operation, target.invocation) := by
  obtain ⟨other, hother, -, hbound⟩ := api.exists_targets ctx c
  rw [hbound, h.unique hother]

/-! Walks along the rest of a name. -/

/-- Results of following segments from a value on: through keys of maps and
listed attributes of entities that may be read, up to the first null. -/
inductive Walks (ctx : Context Obj σ) :
    List String → Value Obj → Except Failure (Value Obj) → Prop
  | done (v : Value Obj) : Walks ctx [] v (.ok v)
  | null (segment : String) (rest : List String) : Walks ctx (segment :: rest) .null (.ok .null)
  | key {fields : Fields (Value Obj)} {segment : String} {rest : List String}
      {result : Except Failure (Value Obj)}
      (h : Walks ctx rest ((Fields.get? fields segment).getD .null) result) :
      Walks ctx (segment :: rest) (.map fields) result
  | listed {o : Obj} {d : Descriptor Obj} {segment : String} {rest : List String}
      {v : Value Obj} {result : Except Failure (Value Obj)} (hd : ctx.descriptor? o = some d)
      (hread : ctx.authorizer .read (.object o) = true) (hlisted : d.allows segment = true)
      (hfield : Entity.field ⟨ctx.toScope, o, d⟩ segment [] = .ok v)
      (h : Walks ctx rest v result) : Walks ctx (segment :: rest) (.object o) result
  | failing {o : Obj} {d : Descriptor Obj} {segment : String} {e : Failure}
      (hd : ctx.descriptor? o = some d) (hread : ctx.authorizer .read (.object o) = true)
      (hlisted : d.allows segment = true)
      (hfield : Entity.field ⟨ctx.toScope, o, d⟩ segment [] = .error e) (rest : List String) :
      Walks ctx (segment :: rest) (.object o) (.error e)
  | unlisted {o : Obj} {d : Descriptor Obj} {segment : String}
      (hd : ctx.descriptor? o = some d) (hread : ctx.authorizer .read (.object o) = true)
      (hlisted : d.allows segment = false) (rest : List String) :
      Walks ctx (segment :: rest) (.object o)
        (.error (.unknownAttribute (ctx.domain.typeName o) segment))
  | denied {o : Obj} {d : Descriptor Obj} (hd : ctx.descriptor? o = some d)
      (hread : ctx.authorizer .read (.object o) = false) (segment : String)
      (rest : List String) :
      Walks ctx (segment :: rest) (.object o)
        (.error (.unauthorized .read (ctx.domain.typeName o)))
  | unregistered {o : Obj} (hd : ctx.descriptor? o = none) (segment : String)
      (rest : List String) :
      Walks ctx (segment :: rest) (.object o)
        (.error (.render ("no entity registered for " ++ ctx.domain.typeName o)))
  | plain {v : Value Obj} (hnull : v.isNull = false) (hmap : v.asMap? = none)
      (hobject : v.asObject? = none) (segment : String) (rest : List String) :
      Walks ctx (segment :: rest) v
        (.error (.render (v.kind ctx.domain ++ " value has no member '" ++ segment ++ "'")))

theorem exists_walks (ctx : Context Obj σ) (path : List String) (v : Value Obj) :
    ∃ result, Walks ctx path v result := by
  induction path generalizing v with
  | nil => exact ⟨_, .done v⟩
  | cons segment rest ih =>
      cases v with
      | null => exact ⟨_, .null segment rest⟩
      | map fields =>
          obtain ⟨result, h⟩ := ih ((Fields.get? fields segment).getD .null)
          exact ⟨result, .key h⟩
      | object o =>
          cases hd : ctx.descriptor? o with
          | none => exact ⟨_, .unregistered hd segment rest⟩
          | some d =>
              cases hread : ctx.authorizer .read (.object o) with
              | false => exact ⟨_, .denied hd hread segment rest⟩
              | true =>
                  cases hlisted : d.allows segment with
                  | false => exact ⟨_, .unlisted hd hread hlisted rest⟩
                  | true =>
                      cases hfield : Entity.field ⟨ctx.toScope, o, d⟩ segment [] with
                      | error e => exact ⟨_, .failing hd hread hlisted hfield rest⟩
                      | ok v =>
                          obtain ⟨result, h⟩ := ih v
                          exact ⟨result, .listed hd hread hlisted hfield h⟩
      | bool | int | float | string | list => exact ⟨_, .plain rfl rfl rfl segment rest⟩

theorem Walks.unique {path : List String} {v : Value Obj}
    {result other : Except Failure (Value Obj)} (h : Walks ctx path v result)
    (hother : Walks ctx path v other) : other = result := by
  induction h with
  | done =>
      cases hother with
      | done => rfl
  | null =>
      cases hother with
      | null => rfl
      | plain hnull => cases hnull
  | key _ ih =>
      cases hother with
      | key hother => exact ih hother
      | plain _ hmap => cases hmap
  | listed hd hread hlisted hfield _ ih =>
      cases hother with
      | listed hd' _ _ hfield' h' =>
          obtain rfl := Option.some.inj (hd'.symm.trans hd)
          obtain rfl := Except.ok.inj (hfield'.symm.trans hfield)
          exact ih h'
      | plain _ _ hobject => cases hobject
      | _ => simp_all
  | failing hd hread hlisted hfield =>
      cases hother with
      | plain _ _ hobject => cases hobject
      | _ => simp_all
  | unlisted hd hread | denied hd hread =>
      cases hother with
      | plain _ _ hobject => cases hobject
      | _ => simp_all
  | unregistered hd =>
      cases hother with
      | unregistered => rfl
      | plain _ _ hobject => cases hobject
      | _ => simp_all
  | plain hnull hmap hobject =>
      cases hother with
      | null => cases hnull
      | key => cases hmap
      | plain => rfl
      | _ => cases hobject

/-- The members of an entity that may be read are its attributes. -/
theorem memberOf_of_readable {o : Obj} {d : Descriptor Obj} (hd : ctx.descriptor? o = some d)
    (hread : ctx.authorizer .read (.object o) = true) (segment : String) :
    memberOf ctx segment (.object o) = Entity.field ⟨ctx.toScope, o, d⟩ segment [] := by
  rw [memberOf, Entity.open?_of_readable hd hread]
  rfl

/-- Following the rest of a name, failures to reach an attribute are reported
under the name. -/
theorem Walks.walk_eq {path : List String} {v : Value Obj} {result : Except Failure (Value Obj)}
    (h : Walks ctx path v result) (name : String) :
    walk ctx name path v = result.mapError (hideAttribute name) := by
  induction h with
  | done => rfl
  | null => rfl
  | key _ ih => exact ih
  | listed hd hread _ hfield _ ih =>
      rw [walk, memberOf_of_readable hd hread, hfield]
      exact ih
  | failing hd hread _ hfield =>
      rw [walk, memberOf_of_readable hd hread, hfield]
      rfl
  | unlisted hd hread hlisted =>
      rw [walk, memberOf_of_readable hd hread, Entity.field_of_unlisted hlisted]
      rfl
  | denied hd hread =>
      rw [walk, memberOf, Entity.open?_of_denied hd hread]
      rfl
  | unregistered hd =>
      rw [walk, memberOf, Entity.open?_of_unregistered hd]
      rfl
  | @plain v hnull hmap hobject =>
      cases v with
      | null => cases hnull
      | map => cases hmap
      | object => cases hobject
      | bool | int | float | string | list => rfl

/-! Answers of dispatched calls. -/

/-- The answer of a call from the value that its name leads to on: a leaf, or
what the value renders to. -/
def present (ctx : Context Obj σ) (c : Call) (v : Value Obj) : CallRun σ Json :=
  match c.nested with
  | none => pure v.toLeaf
  | some selection => do
      let loaded ← .ofRun (eagerLoad ctx c.hints v)
      .ofExcept (loaded.render ctx (some selection))

/-- A call in a request, once its failures are contained or not. -/
def settled (ctx : Context Obj σ) (action : CallRun σ Json) : Run σ Json :=
  ExceptT.mk (action.run >>= fun result => pure (Simulates.settle ctx result))

theorem Targets.answer_eq {target : Option (Target Obj σ)} (h : api.Targets ctx c target) :
    api.answer ctx c = settled ctx (perform ctx c.name target >>= present ctx c) := by
  rw [Simulates.answer_eq, ← h.invoke_eq]
  rfl

/-- How a call is answered that goes to a target. -/
structure Answered (api : Api Obj σ) (ctx : Context Obj σ) (c : Call)
    (target : Option (Target Obj σ)) : Prop where
  /-- Whatever writes down all invocations, that of the target is the only one. -/
  once : ∀ (κ : Type) (log : σ → List κ) (label : Invocation Obj σ → κ),
    api.Logged ctx log label →
      Appends log (target.toList.map fun t => label t.invocation) _ (api.answer ctx c).run
  unknown : target = none → ∀ st,
    (api.answer ctx c).exec st = (ctx.contain (.error (.unknownOperation c.name)), st)
  /-- An operation that refuses its caller ends the request. -/
  refused : ∀ t ∈ target, ∀ st st' action subject,
    (t.operation t.invocation).exec st = (.error (.unauthorized action subject), st') →
      ∀ members rest, ctx.checkDeadline = .ok () →
        (api.executeCalls ctx members (c :: rest)).exec st =
          (.error (.unauthorized action subject), st')
  failed : ∀ t ∈ target, ∀ st st' e, (t.operation t.invocation).exec st = (.error e, st') →
    (∀ action subject, e ≠ .unauthorized action subject) →
      (api.answer ctx c).exec st = (ctx.contain (.error e), st')
  hidden : ∀ t ∈ target, ∀ st st' v typeName field,
    (t.operation t.invocation).exec st = (.ok v, st') →
      Walks ctx t.rest v (.error (.unknownAttribute typeName field)) →
        (api.answer ctx c).exec st = (ctx.contain (.error (.unknownOperation c.name)), st')
  strayed : ∀ t ∈ target, ∀ st st' v e, (t.operation t.invocation).exec st = (.ok v, st') →
    Walks ctx t.rest v (.error e) → (∀ typeName field, e ≠ .unknownAttribute typeName field) →
      (api.answer ctx c).exec st = (ctx.contain (.error e), st')
  /-- A refusal on the way is a null in a lenient request, which goes on. -/
  denied : ∀ t ∈ target, ∀ st st' v action subject,
    (t.operation t.invocation).exec st = (.ok v, st') →
      Walks ctx t.rest v (.error (.unauthorized action subject)) → ctx.mode = .lenient →
        ∀ members rest, ctx.checkDeadline = .ok () →
          (api.executeCalls ctx members (c :: rest)).exec st =
            (api.executeCalls ctx (mergeEntry .replaceArrays members c.key .null) rest).exec st'
  reached : ∀ t ∈ target, ∀ st st' v w, (t.operation t.invocation).exec st = (.ok v, st') →
    Walks ctx t.rest v (.ok w) →
      (api.answer ctx c).exec st = (settled ctx (present ctx c w)).exec st'

section

variable {t : Target Obj σ} {st st' : σ} {v : Value Obj} {e : Failure} {name : String}

theorem run_ofOperation {action : Run σ (Value Obj)} {result : Except Failure (Value Obj)}
    (h : action.exec st = (result, st')) :
    (CallRun.ofOperation action).run.run st = (result.mapError CallFailure.ofOperation, st') := by
  change ((action.exec st).1.mapError CallFailure.ofOperation, (action.exec st).2) = _
  rw [h]

/-- A target whose operation fails fails the same way. -/
theorem perform_of_error (h : (t.operation t.invocation).exec st = (.error e, st'))
    (next : Value Obj → CallRun σ Json) :
    (perform ctx name (some t) >>= next).run.run st = (.error (.ofOperation e), st') := by
  apply run_bind_of_error
  apply run_bind_of_error
  exact run_ofOperation h

/-- A target whose operation succeeds is walked from its result on. -/
theorem perform_of_ok {result : Except Failure (Value Obj)}
    (h : (t.operation t.invocation).exec st = (.ok v, st')) (hwalks : Walks ctx t.rest v result) :
    (perform ctx name (some t)).run.run st =
      ((result.mapError (hideAttribute name)).mapError .failed, st') := by
  refine (run_bind_of_ok (run_ofOperation h)).trans ?_
  rw [hwalks.walk_eq]
  rfl

theorem exec_settled {action : CallRun σ Json} {result : Except CallFailure Json}
    (h : action.run.run st = (result, st')) :
    (settled ctx action).exec st = (Simulates.settle ctx result, st') := by
  change (Simulates.settle ctx (action.run.run st).1, (action.run.run st).2) = _
  rw [h]

/-- Whatever is met on a walk is settled like a failure of the call itself. -/
theorem exec_strayed (h : (t.operation t.invocation).exec st = (.ok v, st'))
    (hwalks : Walks ctx t.rest v (.error e)) (next : Value Obj → CallRun σ Json) :
    (settled ctx (perform ctx name (some t) >>= next)).exec st =
      (ctx.contain (.error (hideAttribute name e)), st') :=
  exec_settled (run_bind_of_error (perform_of_ok h hwalks))

end

theorem Targets.answered {target : Option (Target Obj σ)} (h : api.Targets ctx c target) :
    api.Answered ctx c target where
  once κ log label hlogged := by
    have hanswer := hlogged.answer c
    rw [h.bound?_eq] at hanswer
    cases target <;> exact hanswer
  unknown := by
    rintro rfl st
    rw [h.answer_eq]
    rfl
  refused := by
    rintro t rfl st st' action subject hexec members rest hdeadline
    apply exec_executeCalls_of_error hdeadline
    rw [h.answer_eq]
    exact exec_settled (perform_of_error hexec _)
  failed := by
    rintro t rfl st st' e hexec hallowed
    rw [h.answer_eq, exec_settled (perform_of_error hexec _)]
    cases e with
    | unauthorized action subject => exact absurd rfl (hallowed action subject)
    | _ => rfl
  hidden := by
    rintro t rfl st st' v typeName field hexec hwalks
    rw [h.answer_eq]
    exact exec_strayed hexec hwalks _
  strayed := by
    rintro t rfl st st' v e hexec hwalks hlisted
    rw [h.answer_eq, exec_strayed hexec hwalks]
    cases e with
    | unknownAttribute typeName field => exact absurd rfl (hlisted typeName field)
    | _ => rfl
  denied := by
    rintro t rfl st st' v action subject hexec hwalks hmode members rest hdeadline
    apply exec_executeCalls_of_ok hdeadline
    rw [h.answer_eq, exec_strayed hexec hwalks]
    simp [Scope.contain, hideAttribute, Failure.isContained, hmode]
  reached := by
    rintro t rfl st st' v w hexec hwalks
    rw [h.answer_eq]
    exact exec_settled (run_bind_of_ok (perform_of_ok hexec hwalks))

/-- Every call goes to just one target, and is answered from what the operation
of the target leaves after one run, walked along the rest of the name. -/
theorem call_dispatched (api : Api Obj σ) (ctx : Context Obj σ) (c : Call) :
    (∃! target, api.Targets ctx c target) ∧
      (∀ path v, ∃! result, Walks ctx path v result) ∧
      ∀ target, api.Targets ctx c target → api.Answered ctx c target := by
  obtain ⟨target, htarget, -⟩ := api.exists_targets ctx c
  refine ⟨⟨target, htarget, fun _ => htarget.unique⟩, fun path v => ?_, fun _ => Targets.answered⟩
  obtain ⟨result, hresult⟩ := exists_walks ctx path v
  exact ⟨result, hresult, fun _ => hresult.unique⟩

end Api

end FieldQuery
