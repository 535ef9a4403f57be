import FieldQuery.Proofs.Answer.Members
import FieldQuery.Proofs.Api.Effects
import FieldQuery.Proofs.Simulation.Mode

/-!
Calls do not depend on their siblings. If no two calls of a selection have one
key, then rendering a value against the selection, or executing it on
operations whose results no earlier invocation changes, gives every call what
it is given alone, and fails only if a call alone does.
-/

namespace FieldQuery

variable {Obj σ : Type}

/-- Runs of a selection that are put together from runs of its calls alone. -/
structure Selection.Apart (run : Selection → Except Failure Json) (s : Selection) : Prop where
  succeeds : (∃ out, run s = .ok out) ↔ ∀ c ∈ s, ∃ out, run [c] = .ok out
  values : ∀ out, run s = .ok out → ∃ members, out = .object members ∧
    Fields.names members = s.map Call.key ∧
    ∀ c ∈ s, ∃ v, run [c] = .ok (.object [(c.key, v)]) ∧ Fields.get? members c.key = some v
  /-- Permuted calls give the same members in the order of the calls. -/
  permuted : ∀ t : Selection, s.Perm t → ∀ out, run s = .ok out →
    ∃ members members', out = .object members ∧ run t = .ok (.object members') ∧
      Fields.names members' = t.map Call.key ∧ members.Perm members'

/-! Calls one by one. -/

/-- Answers calls in order and merges the results, up to the first failure. -/
def collect (policy : MergePolicy) (f : Call → Except Failure Json) (members : Fields Json) :
    List Call → Except Failure (Fields Json)
  | [] => .ok members
  | c :: rest => do
      let v ← f c
      collect policy f (mergeEntry policy members c.key v) rest

/-- The member that a call adds, if it does not fail. -/
def Call.member (f : Call → Except Failure Json) (c : Call) : String × Json :=
  (c.key, (f c).toOption.getD .null)

variable {policy : MergePolicy} {f : Call → Except Failure Json}

theorem names_map_member (f : Call → Except Failure Json) (s : Selection) :
    Fields.names (s.map (Call.member f)) = s.map Call.key := by
  simp [Fields.names, Call.member, Function.comp_def]

/-- Under new keys, calls add their members one after the other. The members
that are there already grow along the induction, and later keys stay new. -/
theorem collect_eq_ok_iff {calls : List Call} {members result : Fields Json}
    (hkeys : (Fields.names members ++ calls.map Call.key).Nodup) :
    collect policy f members calls = .ok result ↔
      (∀ c ∈ calls, ∃ v, f c = .ok v) ∧ result = members ++ calls.map (Call.member f) := by
  induction calls generalizing members with
  | nil => simp [collect, eq_comm]
  | cons c rest ih =>
      rw [List.forall_mem_cons, collect]
      cases hc : f c with
      | error e =>
          constructor
          · intro h
            cases h
          · rintro ⟨⟨⟨v, hv⟩, -⟩, -⟩
            cases hv
      | ok v =>
          have hfresh : c.key ∉ Fields.names members := by
            intro hmem
            exact (List.nodup_append.mp hkeys).2.2 _ hmem _ List.mem_cons_self rfl
          have hlater : (Fields.names (members ++ [(c.key, v)]) ++ rest.map Call.key).Nodup := by
            simpa [Fields.names] using hkeys
          have hmember : c.member f = (c.key, v) := by
            rw [Call.member, hc]
            rfl
          change collect policy f (mergeEntry policy members c.key v) rest = _ ↔ _
          rw [mergeEntry_of_not_mem hfresh, ih hlater, List.map_cons, hmember, List.append_assoc]
          simp

/-- Whatever collects its calls runs them apart from each other. -/
theorem Selection.apart_of_collect {run : Selection → Except Failure Json}
    (hrun : ∀ t, run t = (collect policy f [] t).map .object) {s : Selection}
    (hkeys : (s.map Call.key).Nodup) : s.Apart run := by
  have hok (t : Selection) (ht : (t.map Call.key).Nodup) (out : Json) :
      run t = .ok out ↔
        (∀ c ∈ t, ∃ v, f c = .ok v) ∧ out = .object (t.map (Call.member f)) := by
    have hfresh : (Fields.names ([] : Fields Json) ++ t.map Call.key).Nodup := ht
    rw [hrun]
    constructor
    · intro h
      obtain ⟨members, hmembers, rfl⟩ := exists_of_map_ok h
      obtain ⟨hcalls, rfl⟩ := (collect_eq_ok_iff hfresh).mp hmembers
      exact ⟨hcalls, rfl⟩
    · rintro ⟨hcalls, rfl⟩
      rw [(collect_eq_ok_iff hfresh).mpr ⟨hcalls, rfl⟩]
      rfl
  have halone (c : Call) (out : Json) :
      run [c] = .ok out ↔ (∃ v, f c = .ok v) ∧ out = .object [c.member f] := by
    rw [hok [c] (by simp), List.forall_mem_singleton]
    rfl
  have hnames (t : Selection) : Fields.names (t.map (Call.member f)) = t.map Call.key :=
    names_map_member f t
  constructor
  · constructor
    · rintro ⟨out, hout⟩ c hc
      exact ⟨_, (halone c _).mpr ⟨((hok s hkeys out).mp hout).1 c hc, rfl⟩⟩
    · intro hcalls
      refine ⟨_, (hok s hkeys _).mpr ⟨fun c hc => ?_, rfl⟩⟩
      obtain ⟨out, hout⟩ := hcalls c hc
      exact ((halone c out).mp hout).1
  · intro out hout
    obtain ⟨hcalls, rfl⟩ := (hok s hkeys out).mp hout
    refine ⟨_, rfl, hnames s, fun c hc => ⟨_, (halone c _).mpr ⟨hcalls c hc, rfl⟩, ?_⟩⟩
    have hdistinct : (Fields.names (s.map (Call.member f))).Nodup := by rwa [hnames]
    exact Fields.get?_of_mem hdistinct (List.mem_map_of_mem hc)
  · intro t ht out hout
    obtain ⟨hcalls, rfl⟩ := (hok s hkeys out).mp hout
    have htkeys : (t.map Call.key).Nodup := (ht.map Call.key).nodup hkeys
    refine ⟨_, _, rfl, (hok t htkeys _).mpr ⟨fun c hc => ?_, rfl⟩, hnames t, ht.map _⟩
    exact hcalls c (ht.mem_iff.mpr hc)

/-! Rendering. -/

/-- Values whose members a selection reaches: maps, and registered objects that
may be read. -/
inductive Value.Selectable (ctx : Context Obj σ) : Value Obj → Prop
  | map (fields : Fields (Value Obj)) : Selectable ctx (.map fields)
  | object {o : Obj} {d : Descriptor Obj} (hd : ctx.descriptor? o = some d)
      (hread : ctx.authorizer .read (.object o) = true) : Selectable ctx (.object o)

theorem Source.renderCalls_eq_collect (ctx : Context Obj σ) (source : Source Obj)
    (members : Fields Json) (calls : List Call) :
    source.renderCalls ctx members calls =
      collect .union (fun c => ctx.contain (source.renderCall ctx c)) members calls := by
  induction calls generalizing members with
  | nil => rfl
  | cons c rest ih =>
      rw [renderCalls, collect]
      refine bind_congr fun v => ih _

theorem Value.Selectable.exists_source {ctx : Context Obj σ} {v : Value Obj}
    (h : v.Selectable ctx) :
    ∃ source : Source Obj, ∀ t : Selection,
      v.render ctx (some t) = (source.renderCalls ctx [] t).map .object := by
  cases h with
  | map fields => exact ⟨.map fields, fun _ => rfl⟩
  | @object o d hd hread =>
      refine ⟨.entity ⟨ctx.toScope, o, d⟩, fun t => ?_⟩
      change (Entity.open? ctx o).bind _ = _
      rw [Entity.open?_of_readable hd hread]
      rfl

/-! Execution. -/

/-- Computations that answer the same in all states with a property, and keep
the property. -/
def Steady (P : σ → Prop) (α : Type) (x : StateM σ α) : Prop :=
  ∃ a, ∀ s, P s → (x.run s).1 = a ∧ P (x.run s).2

theorem compositional_steady (P : σ → Prop) : Compositional (Steady P) where
  pure a := ⟨a, fun _ hs => ⟨rfl, hs⟩⟩
  bind := by
    rintro α β x f ⟨a, hx⟩ hf
    obtain ⟨b, hb⟩ := hf a
    refine ⟨b, fun s hs => ?_⟩
    obtain ⟨hresult, hkept⟩ := hx s hs
    have hbind : (x >>= f).run s = (f (x.run s).1).run (x.run s).2 := rfl
    rw [hbind, hresult]
    exact hb _ hkept

theorem Api.executeCalls_eq_collect {api : Api Obj σ} {ctx : Context Obj σ} {P : σ → Prop}
    (hdeadline : ctx.checkDeadline = .ok ())
    (hanswer : ∀ c s, P s → ((api.answer ctx c).exec s).1 = f c ∧ P ((api.answer ctx c).exec s).2)
    (calls : List Call) (members : Fields Json) {st : σ} (hst : P st) :
    ((api.executeCalls ctx members calls).exec st).1 = collect .replaceArrays f members calls := by
  induction calls generalizing members st with
  | nil => rfl
  | cons c rest ih =>
      obtain ⟨hresult, hkept⟩ := hanswer c st hst
      obtain ⟨result, st', hexec⟩ : ∃ result st', (api.answer ctx c).exec st = (result, st') :=
        ⟨_, _, rfl⟩
      rw [hexec] at hresult hkept
      rw [collect, ← hresult]
      cases result with
      | error e =>
          rw [exec_executeCalls_of_error hdeadline hexec]
          rfl
      | ok v =>
          rw [exec_executeCalls_of_ok hdeadline hexec]
          exact ih _ hkept

/-- A selection without a repeated key gives every call what the call is given
alone: rendered against a value whose members it reaches, and executed on
steady operations and data access without a deadline. Computed attributes,
fields of objects and prefetching are pure by their types, so of the host's
code only operations and data access are asked to be steady. -/
theorem calls_apart (ctx : Context Obj σ) {s : Selection} (hkeys : (s.map Call.key).Nodup) :
    (∀ v : Value Obj, v.Selectable ctx → s.Apart fun t => v.render ctx (some t)) ∧
      ∀ (api : Api Obj σ) (P : σ → Prop) (st : σ), P st → api.Obeys (Steady P) ctx →
        ctx.deadline = none → s.Apart fun t => ((api.execute ctx t).exec st).1.map .object := by
  constructor
  · intro v hv
    obtain ⟨source, hsource⟩ := hv.exists_source
    have hrun (t : Selection) : v.render ctx (some t) =
        (collect .union (fun c => ctx.contain (source.renderCall ctx c)) [] t).map .object := by
      rw [hsource, source.renderCalls_eq_collect]
    exact Selection.apart_of_collect hrun hkeys
  · intro api P st hst hobeys hdeadline
    have hchecked : ctx.checkDeadline = .ok () := by
      rw [Context.checkDeadline, hdeadline]
    -- Every state that a request passes through has the property, so each call
    -- is answered as in the first state, whatever ran before it.
    have hanswer (c : Call) (s : σ) (hs : P s) :
        ((api.answer ctx c).exec s).1 = ((api.answer ctx c).exec st).1 ∧
          P ((api.answer ctx c).exec s).2 := by
      obtain ⟨result, hresult⟩ := hobeys.answer (compositional_steady P) c
      exact ⟨(hresult s hs).1.trans (hresult st hst).1.symm, (hresult s hs).2⟩
    have hrun (t : Selection) : ((api.execute ctx t).exec st).1 =
        collect .replaceArrays (fun c => ((api.answer ctx c).exec st).1) [] t :=
      Api.executeCalls_eq_collect hchecked hanswer t [] hst
    exact Selection.apart_of_collect (fun t => congrArg (Except.map Json.object) (hrun t)) hkeys

namespace Blog

/-- Counts how often it hands out the author. -/
def counted : Api Host.Record Nat :=
  ⟨[("user", fun _ => ExceptT.mk fun n => (.ok (.object (author "first")), n + 1))]⟩

def counting : Context Host.Record Nat :=
  { Context.ofDomain Host.Record.domain with
    authorizer := denyPosts
    entities := greeter.entities }

theorem counted_steady : counted.Obeys (Steady fun _ => True) counting where
  operation := by
    intro name operation hname inv _ _
    rcases List.mem_cons.mp (Fields.mem_of_get? hname) with huser | hnone
    · cases huser
      exact ⟨_, fun _ _ => ⟨rfl, trivial⟩⟩
    · cases hnone
  dataAccess := by
    intro access haccess
    cases haccess

theorem details_apart :
    (details.map Call.key).Nodup ∧
      (details.Apart fun t =>
        (Value.object (author "first")).render counting (some t)) ∧
      details.Apart fun t => ((counted.execute counting t).exec 3).1.map .object := by
  have hkeys : (details.map Call.key).Nodup := by decide
  obtain ⟨hrender, hexecute⟩ := calls_apart counting hkeys
  refine ⟨hkeys, hrender _ (.object rfl rfl), ?_⟩
  exact hexecute counted (fun _ => True) 3 trivial counted_steady rfl

end Blog

end FieldQuery
