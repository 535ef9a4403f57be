import FieldQuery.Proofs.Simulation.Value

/-!
Rendering side by side. Two contexts simulate each other if corresponding
objects open and answer alike; rendering corresponding values under them then
agrees, for every selection, if corresponding objects answer alike for what
dotted tails read of them in the first run.
-/

namespace FieldQuery

variable {Obj Obj' σ τ : Type} {excused : Failure → Prop} {R : Obj → Obj' → Prop}
  {followed : Obj → String → Prop}

/-- Entities whose attributes answer alike. -/
def Entity.Corresponds (excused : Failure → Prop) (R : Obj → Obj' → Prop) (e : Entity Obj)
    (e' : Entity Obj') : Prop :=
  ∀ name args args', Value.ItemsCorrespond R args args' →
    Agree excused (Value.Corresponds R) (e.field name args) (e'.field name args')

inductive Source.Corresponds (excused : Failure → Prop) (R : Obj → Obj' → Prop) :
    Source Obj → Source Obj' → Prop
  | map {fields : Fields (Value Obj)} {fields' : Fields (Value Obj')}
      (h : Value.FieldsCorrespond R fields fields') : Corresponds excused R (.map fields) (.map fields')
  | entity {e : Entity Obj} {e' : Entity Obj'} (h : e.Corresponds excused R e') :
      Corresponds excused R (.entity e) (.entity e')

/-- Contexts under which corresponding objects cannot be told apart by what
rendering asks of them. Tails of dotted names read the fields in `followed`
without asking an entity. -/
structure Context.Simulates (excused : Failure → Prop) (R : Obj → Obj' → Prop)
    (followed : Obj → String → Prop) (ctx : Context Obj σ) (ctx' : Context Obj' τ) : Prop where
  typeName : ∀ o o', R o o' → ctx.domain.typeName o = ctx'.domain.typeName o'
  prefetch : ∀ o o' hints, R o o' →
    Option.Rel (Value.Corresponds R) (ctx.domain.prefetch o hints) (ctx'.domain.prefetch o' hints)
  field : ∀ o o' name, followed o name → R o o' → ∀ args args', Value.ItemsCorrespond R args args' →
    Option.Rel (Value.Corresponds R) (ctx.domain.field o name args) (ctx'.domain.field o' name args')
  opened : ∀ o o', R o o' →
    Agree excused (Entity.Corresponds excused R) (Entity.open? ctx o) (Entity.open? ctx' o')
  params : Value.FieldsCorrespond R ctx.params ctx'.params
  contain : ∀ e, Agree excused Eq (ctx.contain (.error e)) (ctx'.contain (.error e))
  raise : ∀ e, excused e → ctx.contain (.error e) = .error e

namespace Context.Simulates

variable {ctx : Context Obj σ} {ctx' : Context Obj' τ}

theorem contain_agree (h : ctx.Simulates excused R followed ctx') {x y : Except Failure Json}
    (hxy : Agree excused Eq x y) : Agree excused Eq (ctx.contain x) (ctx'.contain y) := by
  cases hxy with
  | ok hxy => exact .ok hxy
  | error e => exact h.contain e
  | @excuse e he y =>
      rw [h.raise e he]
      exact .excuse he _

theorem resolveParams (h : ctx.Simulates excused R followed ctx') (params : List Param) :
    Value.ItemsCorrespond R (ctx.resolveParams params) (ctx'.resolveParams params) := by
  induction params with
  | nil => exact .nil
  | cons param params ih =>
      refine .cons ?_ ih
      cases param with
      | named name => exact .getD_null (h.params.get? name)
      | number x => exact .float x
      | literal text => exact .string text

theorem follow (h : ctx.Simulates excused R followed ctx') {args : List (Value Obj)}
    {args' : List (Value Obj')} (hargs : Value.ItemsCorrespond R args args') {path : List String}
    {v : Value Obj} {v' : Value Obj'} (hv : Value.Corresponds R v v')
    (hreads : (v.followReads ctx.domain args path).Within followed) :
    Value.Corresponds R (v.follow ctx.domain args path) (v'.follow ctx'.domain args' path) := by
  refine hv.follow (hreads.mono ?_)
  intro o name hname o' ho
  exact h.field o o' name hname ho args args' hargs

theorem read_agree (h : ctx.Simulates excused R followed ctx') {source : Source Obj}
    {source' : Source Obj'} (hsource : source.Corresponds excused R source') {c : Call}
    (hreads : (source.tailReads ctx.toScope c).Within followed) :
    Agree excused (Value.Corresponds R) (source.read ctx.toScope c)
      (source'.read ctx'.toScope c) := by
  have hargs := h.resolveParams c.args
  cases hsource with
  | map hfields =>
      unfold Source.tailReads at hreads
      unfold Source.read
      cases hc : c.path with
      | nil => exact .ok .null
      | cons head path =>
          rw [hc] at hreads
          have hhead := Value.Corresponds.getD_null (hfields.get? head)
          exact .ok (h.follow .nil hhead hreads)
  | entity he =>
      unfold Source.tailReads at hreads
      unfold Source.read
      cases hc : c.path with
      | nil => exact he "" _ _ hargs
      | cons head path =>
          rw [hc] at hreads
          have hhead := he head _ _ hargs
          apply hhead.bind
          intro v v' hok hv
          exact .ok (h.follow hargs hv (hreads.after_ok hok))

section

variable {fields : Source Obj → Except Failure Json} {fields' : Source Obj' → Except Failure Json}
  {reads : Source Obj → Reads Obj}

mutual

/-- Rendering against fields that render alike if what they read is followed. -/
theorem renderWith_agree (h : ctx.Simulates excused R followed ctx')
    (hfields : ∀ source source', source.Corresponds excused R source' →
      (reads source).Within followed →
        Agree excused Eq (fields source) (fields' source')) {v : Value Obj} {v' : Value Obj'} :
    Value.Corresponds R v v' → (v.readsWith ctx fields reads).Within followed →
      Agree excused Eq (v.renderWith ctx fields) (v'.renderWith ctx' fields')
  | .null, _ => .ok rfl
  | .bool _, _ | .int _, _ | .float _, _ | .string _, _ => .error _
  | .map hm, hreads => hfields _ _ (.map hm) hreads
  | .list hitems, hreads => by
      have hrendered := renderItems_agree h hfields hitems hreads
      apply hrendered.map
      intro items items' hsame
      rw [hsame]
  | .object ho, hreads => by
      have hopened := h.opened _ _ ho
      apply hopened.bind
      intro e e' hok he
      exact hfields _ _ (.entity he) (hreads.after_ok hok)

theorem renderItems_agree (h : ctx.Simulates excused R followed ctx')
    (hfields : ∀ source source', source.Corresponds excused R source' →
      (reads source).Within followed →
        Agree excused Eq (fields source) (fields' source')) {items : List (Value Obj)}
    {items' : List (Value Obj')} :
    Value.ItemsCorrespond R items items' →
      (Value.itemsReads ctx fields reads items).Within followed →
        Agree excused Eq (Value.renderItems ctx fields items) (Value.renderItems ctx' fields' items')
  | .nil, _ => .ok rfl
  | .cons hv hitems, hreads => by
      have hitem := h.contain_agree (renderWith_agree h hfields hv hreads.left)
      apply hitem.bind
      rintro item _ hok rfl
      have hrest := renderItems_agree h hfields hitems (hreads.right.after_ok hok)
      apply hrest.bind
      rintro items _ - rfl
      exact .ok rfl

end

end

mutual

theorem renderCall_agree (h : ctx.Simulates excused R followed ctx') {source : Source Obj}
    {source' : Source Obj'} (hsource : source.Corresponds excused R source') :
    (c : Call) → (source.callReads ctx c).Within followed →
      Agree excused Eq (source.renderCall ctx c) (source'.renderCall ctx' c)
  | ⟨name, label, params, none⟩, hreads => by
      have hread := h.read_agree hsource hreads
      apply hread.map
      intro v v' hv
      exact hv.toLeaf_eq
  | ⟨name, label, params, some nested⟩, hreads => by
      have hread := h.read_agree hsource hreads.left
      apply hread.bind
      intro v v' hok hv
      refine h.renderWith_agree ?_ (hv.prefetched h.prefetch _) (hreads.right.after_ok hok)
      intro inner inner' hinner hnested
      have hcalls := renderCalls_agree h hinner [] nested hnested
      apply hcalls.map
      intro members members' hsame
      rw [hsame]

theorem renderCalls_agree (h : ctx.Simulates excused R followed ctx') {source : Source Obj}
    {source' : Source Obj'} (hsource : source.Corresponds excused R source')
    (members : Fields Json) :
    (calls : List Call) → (source.callsReads ctx calls).Within followed →
      Agree excused Eq (source.renderCalls ctx members calls)
        (source'.renderCalls ctx' members calls)
  | [], _ => .ok rfl
  | c :: rest, hreads => by
      have hcall := renderCall_agree h hsource c hreads.left
      have hmember := h.contain_agree hcall
      apply hmember.bind
      rintro v _ hok rfl
      exact renderCalls_agree h hsource _ rest (hreads.right.after_ok hok)

end

end Context.Simulates

end FieldQuery
