import FieldQuery.Host.Record
import FieldQuery.Proofs.Simulation.Api

/-!
What an answer can depend on. Two requests are compared whose objects may
answer differently for some fields, while the host's own code gives
corresponding values for corresponding arguments. Their results are the same
if all plain attributes of the whitelists answer alike and no call below the
top level is dotted; a field of an object that may not be read reaches an
answer only where the tail of a dotted name reads it.
-/

namespace FieldQuery

variable {Obj Obj' σ τ : Type} {R : Obj → Obj' → Prop} {states : σ → τ → Prop}
  {shown : Obj → String → Prop}

/-- Results of host code in two runs that correspond, failures included. -/
abbrev Matches {α β : Type} (rel : α → β → Prop) : Except Failure α → Except Failure β → Prop :=
  Agree (fun _ => False) rel

/-- Views of corresponding entities whose attributes answer alike. -/
structure EntityView.Corresponds (R : Obj → Obj' → Prop) (ctx : Context Obj σ)
    (ctx' : Context Obj' τ) (view : EntityView Obj) (view' : EntityView Obj') : Prop where
  scope : view.scope = ctx.toScope ∧ view'.scope = ctx'.toScope
  object : R view.object view'.object
  typeName : view.typeName = view'.typeName
  attributes : view.attributes = view'.attributes
  field : ∀ name args args', Value.ItemsCorrespond R args args' →
    Matches (Value.Corresponds R) (view.field name args) (view'.field name args')

/-- Computed attributes that answer alike on corresponding views. -/
def Resolver.Corresponds (R : Obj → Obj' → Prop) (ctx : Context Obj σ) (ctx' : Context Obj' τ)
    (resolver : Resolver Obj) (resolver' : Resolver Obj') : Prop :=
  ∀ view view' args args', EntityView.Corresponds R ctx ctx' view view' →
    Value.ItemsCorrespond R args args' →
      Matches (Value.Corresponds R) (resolver view args) (resolver' view' args')

/-- Descriptors with the same whitelist, whose computed attributes correspond. -/
structure Descriptor.Corresponds (R : Obj → Obj' → Prop) (ctx : Context Obj σ)
    (ctx' : Context Obj' τ) (d : Descriptor Obj) (d' : Descriptor Obj') : Prop where
  typeName : d.typeName = d'.typeName
  names : d.attributeNames = d'.attributeNames
  whitelist : ∀ name, Option.Rel (Option.Rel (Resolver.Corresponds R ctx ctx'))
    (d.attribute? name) (d'.attribute? name)

/-- Two requests that differ only in what corresponding objects answer for
fields that are not shown. -/
structure Api.DiffersOutside (R : Obj → Obj' → Prop) (states : σ → τ → Prop)
    (shown : Obj → String → Prop) (api : Api Obj σ) (ctx : Context Obj σ) (api' : Api Obj' τ)
    (ctx' : Context Obj' τ) : Prop where
  typeId : ∀ o o', R o o' → ctx.domain.typeId o = ctx'.domain.typeId o'
  typeName : ∀ o o', R o o' → ctx.domain.typeName o = ctx'.domain.typeName o'
  id : ∀ o o', R o o' → Option.Rel (Value.Corresponds R) (ctx.domain.id o) (ctx'.domain.id o')
  prefetch : ∀ o o' hints, R o o' →
    Option.Rel (Value.Corresponds R) (ctx.domain.prefetch o hints) (ctx'.domain.prefetch o' hints)
  field : ∀ o o' name, R o o' → shown o name → ∀ args args', Value.ItemsCorrespond R args args' →
    Option.Rel (Value.Corresponds R) (ctx.domain.field o name args) (ctx'.domain.field o' name args')
  params : Value.FieldsCorrespond R ctx.params ctx'.params
  mode : ctx.mode = ctx'.mode
  deadline : ctx.deadline = ctx'.deadline
  authorizer : ∀ o o', R o o' → ctx.authorizer .read (.object o) = ctx'.authorizer .read (.object o')
  entities : ∀ typeId, Option.Rel (Descriptor.Corresponds R ctx ctx')
    (Fields.get? ctx.entities typeId) (Fields.get? ctx'.entities typeId)
  dataAccess : Option.Rel (DataAccess.Simulates (fun _ => False) R states)
    ctx.dataAccess ctx'.dataAccess
  operation : ∀ name, Option.Rel (Operation.Simulates (fun _ => False) R states ctx ctx' name)
    (Fields.get? api.operations name) (Fields.get? api'.operations name)

/-- The type of an object is registered and whitelists a name as a plain
attribute. -/
def Context.Exposes (ctx : Context Obj σ) (o : Obj) (name : String) : Prop :=
  ∃ d, ctx.descriptor? o = some d ∧ d.attribute? name = some none

def Context.MayRead (ctx : Context Obj σ) (o : Obj) : Prop :=
  ctx.authorizer .read (.object o) = true

instance (ctx : Context Obj σ) (o : Obj) : Decidable (ctx.MayRead o) :=
  inferInstanceAs (Decidable (_ = true))

namespace Api.DiffersOutside

variable {api : Api Obj σ} {ctx : Context Obj σ} {api' : Api Obj' τ} {ctx' : Context Obj' τ}

/-- Attributes answer alike to every depth at which computed ones read others. -/
theorem fieldWithin_matches (h : api.DiffersOutside R states shown ctx api' ctx') {o : Obj}
    {o' : Obj'} (ho : R o o') {d : Descriptor Obj} {d' : Descriptor Obj'}
    (hd : Descriptor.Corresponds R ctx ctx' d d')
    (hshown : ∀ name, d.attribute? name = some none → shown o name) (depth : Nat) :
    ∀ name args args', Value.ItemsCorrespond R args args' →
      Matches (Value.Corresponds R) (Entity.fieldWithin ⟨ctx.toScope, o, d⟩ depth name args)
        (Entity.fieldWithin ⟨ctx'.toScope, o', d'⟩ depth name args') := by
  induction depth with
  | zero => exact fun name _ _ _ => .error _
  | succ depth ih =>
      intro name args args' hargs
      have hunknown : Entity.unknownAttribute ⟨ctx.toScope, o, d⟩ name =
          Entity.unknownAttribute ⟨ctx'.toScope, o', d'⟩ name :=
        congrArg (Failure.unknownAttribute · name) (h.typeName o o' ho)
      simp only [Entity.fieldWithin, hunknown]
      -- The whitelists agree on the name, so both attributes are absent, computed or plain.
      rcases rel_cases (hd.whitelist name) with
        ⟨hnone, hnone'⟩ | ⟨entry, entry', hsome, hsome', hentry⟩
      · rw [hnone, hnone']
        exact .error _
      rw [hsome, hsome']
      rcases rel_cases hentry with ⟨rfl, rfl⟩ | ⟨resolver, resolver', rfl, rfl, hresolver⟩
      · dsimp only
        have hplain := h.field o o' name ho (hshown name hsome) args args' hargs
        rcases rel_cases hplain with ⟨hnone, hnone'⟩ | ⟨v, v', hv, hv', hvalues⟩
        · rw [hnone, hnone']
          exact .error _
        · rw [hv, hv']
          exact .ok hvalues
      · apply hresolver _ _ _ _ _ hargs
        exact ⟨⟨rfl, rfl⟩, ho, hd.typeName, hd.names, ih⟩

theorem open?_matches (h : api.DiffersOutside R states shown ctx api' ctx')
    (hshown : ∀ o name, ctx.MayRead o → ctx.Exposes o name → shown o name) {o : Obj} {o' : Obj'}
    (ho : R o o') :
    Matches (Entity.Corresponds (fun _ => False) R) (Entity.open? ctx o) (Entity.open? ctx' o') := by
  have hname := h.typeName o o' ho
  unfold Entity.open? Context.descriptor?
  rw [← h.typeId o o' ho, ← hname]
  rcases rel_cases (h.entities (ctx.domain.typeId o)) with
    ⟨hnone, hnone'⟩ | ⟨d, d', hd, hd', hdescriptor⟩
  · rw [hnone, hnone']
    exact .error _
  rw [hd, hd']
  dsimp only
  unfold Scope.authorize
  rw [← h.authorizer o o' ho]
  split
  next hallowed =>
    apply Agree.ok
    intro name args args' hargs
    have hlength : d.attributes.length = d'.attributes.length := by
      simpa [Descriptor.attributeNames, Fields.names] using congrArg List.length hdescriptor.names
    unfold Entity.field
    rw [← hlength]
    apply h.fieldWithin_matches ho hdescriptor _ _ name args args' hargs
    intro name hplain
    exact hshown o name hallowed ⟨d, hd, hplain⟩
  next =>
    have hdenied : Failure.unauthorized .read (Subject.typeName ctx.domain (.object o)) =
        Failure.unauthorized .read (Subject.typeName ctx'.domain (.object o')) :=
      congrArg (Failure.unauthorized .read) hname
    rw [hdenied]
    exact .error _

/-- Requests simulate each other if whatever is exposed by an object that may
be read is shown; tails may follow all that is shown. -/
theorem simulates (h : api.DiffersOutside R states shown ctx api' ctx')
    (hshown : ∀ o name, ctx.MayRead o → ctx.Exposes o name → shown o name) :
    api.Simulates (fun _ => False) R shown states ctx api' ctx' where
  context :=
    { typeName := h.typeName
      prefetch := h.prefetch
      field := fun o o' name hname ho => h.field o o' name ho hname
      opened := fun _ _ ho => h.open?_matches hshown ho
      params := h.params
      contain := fun e => .of_eq (by unfold Scope.contain; rw [h.mode])
      raise := fun _ he => he.elim }
  operation := h.operation
  id := h.id
  dataAccess := h.dataAccess
  deadline := h.deadline
  hidden := fun _ _ he => he

theorem exec_execute_eq (h : api.DiffersOutside R states shown ctx api' ctx')
    {selection : Selection}
    (hshown : ∀ o name, ctx.MayRead o → ctx.Exposes o name → shown o name) {s : σ} {t : τ}
    (hstates : states s t) (hreads : (api.tailReads ctx selection s).Within shown) :
    ((api.execute ctx selection).exec s).1 = ((api'.execute ctx' selection).exec t).1 :=
  ((h.simulates hshown).execute_agree hstates hreads).fst.eq

end Api.DiffersOutside

/-- None of the attributes is computed. -/
def Descriptor.IsPlain (d : Descriptor Obj) : Prop :=
  ∀ name entry, d.attribute? name = some entry → entry = none

theorem Descriptor.isPlain_ofType (typeName : String) :
    (Descriptor.ofType typeName : Descriptor Obj).IsPlain := by
  intro name entry hname
  cases hname

theorem Descriptor.IsPlain.withAttributes {d : Descriptor Obj} (h : d.IsPlain)
    (names : List String) : (d.withAttributes names).IsPlain := by
  induction names generalizing d with
  | nil => exact h
  | cons name names ih =>
      refine ih fun other entry hother => ?_
      unfold Descriptor.withAttribute at hother
      split at hother
      next => exact h other entry hother
      next =>
        rw [Descriptor.attribute?, Fields.get?_put] at hother
        split at hother
        next => exact (Option.some.inj hother).symm
        next => exact h other entry hother

theorem Descriptor.IsPlain.corresponds {d : Descriptor Obj} (h : d.IsPlain)
    (R : Obj → Obj → Prop) (ctx : Context Obj σ) (ctx' : Context Obj τ) :
    Descriptor.Corresponds R ctx ctx' d d where
  typeName := rfl
  names := rfl
  whitelist := by
    intro name
    cases hname : d.attribute? name with
    | none => exact .none
    | some entry =>
        rw [h name entry hname]
        exact .some .none

namespace Blog

def post (title : String) : Host.Record :=
  ⟨1, "Post", none, none, [("title", .string title), ("kind", .string "draft")], []⟩

def author (title : String) : Host.Record :=
  ⟨0, "User", none, none, [("name", .string "Ada"), ("post", .object (post title))], []⟩

def api (title : String) : Api Host.Record Unit :=
  ⟨[("user", fun _ => pure (.object (author title)))]⟩

/-- Titles of posts are on no whitelist. -/
def context (authorizer : Authorizer Host.Record) : Context Host.Record Unit :=
  { Context.ofDomain Host.Record.domain with
    authorizer
    entities :=
      [("User", (Descriptor.ofType "User").withAttributes ["name", "post"]),
        ("Post", (Descriptor.ofType "Post").withAttributes ["kind"])] }

def denyPosts : Authorizer Host.Record :=
  fun _ subject => subject.typeName Host.Record.domain != "Post"

/-- Of another type than posts, under the name of posts. -/
def revision (title : String) : Host.Record :=
  ⟨2, "Post", none, none, [("kind", .string title)], []⟩

/-- The context of a host that tells revisions from posts or does not. -/
def contextOf (typeId : Host.Record → TypeId) (authorizer : Authorizer Host.Record) :
    Context Host.Record Unit :=
  { context authorizer with domain := { Host.Record.domain with typeId } }

/-- Operations that hand out a value each. -/
def serving (values : Fields (Value Host.Record)) : Api Host.Record Unit :=
  ⟨values.map fun (name, v) => (name, fun _ => pure v)⟩

/-- Records of two blogs that differ in the titles of their posts, and in what
their revisions say. -/
inductive Retitled (title title' : String) : Host.Record → Host.Record → Prop
  | author : Retitled title title' (author title) (author title')
  | post : Retitled title title' (post title) (post title')
  | revision : Retitled title title' (revision title) (revision title')

theorem get?_serving (values : Fields (Value Host.Record)) (name : String) :
    Fields.get? (serving values).operations name =
      (Fields.get? values name).map fun v _ => pure v := by
  induction values with
  | nil => rfl
  | cons field values ih =>
      by_cases hname : field.1 = name
      · simp [serving, Fields.get?, hname]
      · simpa [serving, Fields.get?, hname] using ih

theorem serving_simulates {R : Host.Record → Host.Record → Prop}
    {values values' : Fields (Value Host.Record)} (h : Value.FieldsCorrespond R values values')
    (ctx ctx' : Context Host.Record Unit) (name : String) :
    Option.Rel (Operation.Simulates (fun _ => False) R Eq ctx ctx' name)
      (Fields.get? (serving values).operations name)
      (Fields.get? (serving values').operations name) := by
  rw [get?_serving, get?_serving]
  rcases rel_cases (h.get? name) with ⟨hnone, hnone'⟩ | ⟨v, v', hv, hv', hvalues⟩
  · rw [hnone, hnone']
    exact .none
  · rw [hv, hv']
    exact .some fun _ _ _ _ => .pure hvalues

theorem field_post (title : String) {name : String} (h : "title" ≠ name) :
    Fields.get? (post title).fields name = Fields.get? [("kind", .string "draft")] name :=
  if_neg h

theorem field_revision (title : String) {name : String} (h : "kind" ≠ name) :
    Fields.get? (revision title).fields name = none :=
  if_neg h

theorem differsOutside (typeId : Host.Record → TypeId) (authorizer : Authorizer Host.Record)
    {title title' : String} {values values' : Fields (Value Host.Record)}
    {shown : Host.Record → String → Prop}
    (hvalues : Value.FieldsCorrespond (Retitled title title') values values')
    (htypeId : ∀ o o', Retitled title title' o o' → typeId o = typeId o')
    (hauthorizer : ∀ o o', Retitled title title' o o' →
      authorizer .read (.object o) = authorizer .read (.object o'))
    (htitle : ¬ shown (post title) "title") (hkind : ¬ shown (revision title) "kind") :
    (serving values).DiffersOutside (Retitled title title') Eq shown (contextOf typeId authorizer)
      (serving values') (contextOf typeId authorizer) where
  typeId := htypeId
  typeName := by
    rintro _ _ (_ | _ | _) <;> rfl
  id := by
    rintro _ _ (_ | _ | _) <;> exact .none
  prefetch := by
    rintro _ _ _ (_ | _ | _) <;> exact .none
  field := by
    rintro _ _ name (_ | _ | _) hname args args' hargs
    · exact (Value.FieldsCorrespond.cons "name" (.string "Ada")
        (.cons "post" (.object .post) .nil)).get? name
    · change Option.Rel _ (Fields.get? (post title).fields name)
        (Fields.get? (post title').fields name)
      have hother : "title" ≠ name := by
        rintro rfl
        exact htitle hname
      rw [field_post title hother, field_post title' hother]
      exact (Value.FieldsCorrespond.cons "kind" (.string "draft") .nil).get? name
    · change Option.Rel _ (Fields.get? (revision title).fields name)
        (Fields.get? (revision title').fields name)
      have hother : "kind" ≠ name := by
        rintro rfl
        exact hkind hname
      rw [field_revision title hother, field_revision title' hother]
      exact .none
  params := .nil
  mode := rfl
  deadline := rfl
  authorizer := hauthorizer
  entities := by
    intro typeId
    by_cases huser : "User" = typeId
    · subst huser
      exact .some (((Descriptor.isPlain_ofType "User").withAttributes _).corresponds _ _ _)
    by_cases hpost : "Post" = typeId
    · subst hpost
      exact .some (((Descriptor.isPlain_ofType "Post").withAttributes _).corresponds _ _ _)
    simp only [contextOf, context, Fields.get?, huser, hpost, if_false]
    exact .none
  dataAccess := .none
  operation := serving_simulates hvalues _ _

end Blog

/-- What the whitelists do not expose cannot be learned from an answer: if
only top-level calls are dotted, requests that differ only in such fields have
the same result. -/
theorem execute_eq_of_differsOutside_exposed {api : Api Obj σ} {ctx : Context Obj σ}
    {api' : Api Obj' τ} {ctx' : Context Obj' τ} {selection : Selection}
    (h : api.DiffersOutside R states ctx.Exposes ctx api' ctx')
    (hundotted : ∀ c ∈ selection.below, c.isDotted = false) {s : σ} {t : τ}
    (hstates : states s t) :
    ((api.execute ctx selection).exec s).1 = ((api'.execute ctx' selection).exec t).1 := by
  refine h.exec_execute_eq (fun _ _ _ hexposed => hexposed) hstates ?_
  rw [api.tailReads_of_undotted ctx hundotted s]
  exact Reads.within_nil

namespace Blog

/-- Revisions have an identity of their own, for which nothing is registered. -/
def typeId (r : Host.Record) : TypeId := if r.handle = 2 then "Revision" else r.typeName

/-- A post with its author, and a revision. -/
def draft (title : String) : Fields (Value Host.Record) :=
  [("user", .object (author title)), ("revision", .object (revision title))]

theorem draft_differsOutside (title title' : String) :
    (serving (draft title)).DiffersOutside (Retitled title title') Eq
      (contextOf typeId .allowAll).Exposes (contextOf typeId .allowAll) (serving (draft title'))
      (contextOf typeId .allowAll) := by
  have hvalues : Value.FieldsCorrespond (Retitled title title') (draft title) (draft title') :=
    .cons "user" (.object .author) (.cons "revision" (.object .revision) .nil)
  refine differsOutside typeId .allowAll hvalues (by rintro _ _ (_ | _ | _) <;> rfl)
    (fun _ _ _ => rfl) ?_ ?_
  · rintro ⟨d, hd, htitle⟩
    have hnone : ((Descriptor.ofType "Post").withAttributes ["kind"] :
        Descriptor Host.Record).attribute? "title" = none := by cbv
    cases hd
    rw [hnone] at htitle
    cases htitle
  · rintro ⟨d, hd, -⟩
    cases hd

/-- Asks for the title of the post inside groups and along a top-level name, and
in the same ways for the kind of the revision. -/
def titles : Selection :=
  [⟨"user", none, none, some [.ofName "name",
    ⟨"post", none, none, some [.ofName "kind", .ofName "title"]⟩]⟩, .ofName "user.post.title",
    ⟨"revision", none, none, some [.ofName "kind"]⟩, .ofName "revision.kind"]

theorem titles_hidden :
    (∀ c ∈ titles.below, c.isDotted = false) ∧
      (((serving (draft "first")).execute (contextOf typeId .allowAll) titles).exec ()).1 =
        (((serving (draft "second")).execute (contextOf typeId .allowAll) titles).exec ()).1 := by
  have hundotted : ∀ c ∈ titles.below, c.isDotted = false := by decide +kernel
  exact ⟨hundotted,
    execute_eq_of_differsOutside_exposed (draft_differsOutside "first" "second") hundotted rfl⟩

/-- Asks for the title of the post along a dotted name below the top level. -/
def titleTail : Selection := [⟨"user", none, none, some [.ofName "post.title"]⟩]

/-- The text under the only key of the only group of an answer. -/
def soleText? : Except Failure (Fields Json) → Option String
  | .ok [(_, .object [(_, .string text)])] => some text
  | _ => none

/-- Tails of dotted names ask no authorizer: two blogs that differ only in
posts that may not be read are told apart. -/
theorem denied_title_answered :
    (api "first").DiffersOutside (Retitled "first" "second") Eq
        (fun o _ => (context denyPosts).MayRead o) (context denyPosts) (api "second")
        (context denyPosts) ∧
      (((api "first").execute (context denyPosts) titleTail).exec ()).1 ≠
        (((api "second").execute (context denyPosts) titleTail).exec ()).1 := by
  have hfirst : soleText? (((api "first").execute (context denyPosts) titleTail).exec ()).1 =
      some "first" := by decide +kernel
  have hsecond : soleText? (((api "second").execute (context denyPosts) titleTail).exec ()).1 =
      some "second" := by decide +kernel
  constructor
  · refine differsOutside Host.Record.typeName denyPosts (.cons "user" (.object .author) .nil)
      ?_ ?_ ?_ ?_
    · rintro _ _ (_ | _ | _) <;> rfl
    · rintro _ _ (_ | _ | _) <;> rfl
    · exact fun hread => absurd hread (by decide +kernel)
    · exact fun hread => absurd hread (by decide +kernel)
  · intro hsame
    rw [hsame, hsecond] at hfirst
    exact absurd hfirst (by decide)

end Blog

/-- Nothing of an object that may not be read is in an answer, except for those
fields of it that tails of dotted names read on the way to this answer. -/
theorem execute_eq_of_differsOutside_readable {api : Api Obj σ} {ctx : Context Obj σ}
    {api' : Api Obj' τ} {ctx' : Context Obj' τ} {selection : Selection} {s : σ} {t : τ}
    (h : api.DiffersOutside R states
      (fun o name => ctx.MayRead o ∨ (o, name) ∈ api.tailReads ctx selection s) ctx api' ctx')
    (hstates : states s t) :
    ((api.execute ctx selection).exec s).1 = ((api'.execute ctx' selection).exec t).1 :=
  h.exec_execute_eq (fun _ _ hread _ => .inl hread) hstates fun _ hread => .inr hread

namespace Blog

/-- A page with a title of its own, by an author. -/
def page (title : String) : Fields (Value Host.Record) :=
  [("page", .map [("meta", .map [("title", .string "Notes")]), ("author", .object (author title))])]

/-- Tails for the title of the page and the kind of the post, and the title of
the post in a group. -/
def pageTails : Selection :=
  [⟨"page", none, none, some [.ofName "meta.title",
    ⟨"author", none, none, some [.ofName "post.kind",
      ⟨"post", none, none, some [.ofName "kind", .ofName "title"]⟩]⟩]⟩]

/-- The tails read one field of one object: the kind of the post. -/
theorem tailReads_pageTails :
    ((serving (page "first")).tailReads (context denyPosts) pageTails ()).map
      (fun read => (read.1.handle, read.2)) = [(1, "kind")] := by
  decide +kernel

theorem page_differsOutside :
    (serving (page "first")).DiffersOutside (Retitled "first" "second") Eq
      (fun o name => (context denyPosts).MayRead o ∨
        (o, name) ∈ (serving (page "first")).tailReads (context denyPosts) pageTails ())
      (context denyPosts) (serving (page "second")) (context denyPosts) := by
  have hread {o : Host.Record} {name : String}
      (h : (o, name) ∈ (serving (page "first")).tailReads (context denyPosts) pageTails ()) :
      (o.handle, name) = (1, "kind") := by
    have hmem := List.mem_map_of_mem (f := fun read => (read.1.handle, read.2)) h
    rw [tailReads_pageTails] at hmem
    exact List.mem_singleton.mp hmem
  refine differsOutside Host.Record.typeName denyPosts (.cons "page" (.map ?_) .nil) ?_ ?_ ?_ ?_
  · exact .cons "meta" (.map (.cons "title" (.string "Notes") .nil))
      (.cons "author" (.object .author) .nil)
  · rintro _ _ (_ | _ | _) <;> rfl
  · rintro _ _ (_ | _ | _) <;> rfl
  · rintro (hmay | htail)
    · exact absurd hmay (by decide +kernel)
    · exact absurd (hread htail) (by decide)
  · rintro (hmay | htail)
    · exact absurd hmay (by decide +kernel)
    · exact absurd (hread htail) (by decide)

theorem denied_titles_hidden :
    "title" ∈ pageTails.tails ∧
      (((serving (page "first")).execute (context denyPosts) pageTails).exec ()).1 =
        (((serving (page "second")).execute (context denyPosts) pageTails).exec ()).1 :=
  ⟨by decide +kernel, execute_eq_of_differsOutside_readable page_differsOutside rfl⟩

end Blog

end FieldQuery
