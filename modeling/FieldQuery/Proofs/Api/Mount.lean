import FieldQuery.Proofs.Api.Bindings
import FieldQuery.Proofs.Api.Dispatch
import FieldQuery.Proofs.Simulation.Exposure

/-!
Tables behind a point of mount. A call behind the point goes where the same
call goes on the mounted table, and is answered in the same way, with unknown
operations reported under the longer name. All other calls are answered as
before.
-/

namespace FieldQuery

variable {Obj σ : Type}

/-- The call with its name behind a point of mount. -/
def Call.under (point : String) (c : Call) : Call := { c with name := point ++ "." ++ c.name }

namespace Api

variable {root other : Api Obj σ} {point : String} {ctx : Context Obj σ} {c : Call}

/-- No operation looks at the name under which it is invoked. -/
def NameBlind (api : Api Obj σ) : Prop :=
  api.All fun operation => ∀ (inv : Invocation Obj σ) (name : String),
    operation { inv with name } = operation inv

/-- A bound beginning of a name behind the point goes on from the point. -/
theorem get?_mount_head (hpoint : point ≠ "") (hfree : root.Free point) {name head tail : String}
    (h : point ++ "." ++ name = head ++ "." ++ tail) :
    Fields.get? (root.mount point other).operations head = none ∨
      ∃ between, head = point ++ "." ++ between ∧ name = between ++ "." ++ tail := by
  have hshort (hhead : head.length ≤ point.length) (rest : String) :
      head ≠ point ++ "." ++ rest := by
    rintro rfl
    simp only [String.length_append] at hhead
    have hdot : ".".length = 1 := rfl
    omega
  -- At the point and above it only the root may bind, and it is free there.
  rcases Text.cut_cases h with rfl | ⟨between, hbetween⟩ | hbelow
  · left
    rw [get?_mount_outside root other hpoint (hshort (Nat.le_refl _)), hfree.self]
  · left
    have hhead : head.length ≤ point.length := by
      rw [hbetween, String.length_append, String.length_append]
      omega
    rw [get?_mount_outside root other hpoint (hshort hhead), hfree.above head between hbetween]
  · exact .inr hbelow

/-! Targets behind the point of mount. -/

def Target.under (point : String) (t : Target Obj σ) : Target Obj σ :=
  { t with invocation := { t.invocation with name := point ++ "." ++ t.invocation.name } }

/-- Behind the point, a call goes where it goes on the mounted table. -/
theorem Targets.mount (hpoint : point ≠ "") (hfree : root.Free point)
    (hdistinct : other.operationNames.Nodup) {target : Option (Target Obj σ)}
    (h : other.Targets ctx c target) :
    (root.mount point other).Targets ctx (c.under point) (target.map (Target.under point)) := by
  have hunder := get?_mount_under hpoint hfree hdistinct
  cases h with
  | bound h => exact .bound ((hunder c.name).trans h)
  | @dotted head tail operation hname h =>
      refine .dotted ((hunder c.name).trans hname) ⟨?_, (hunder head).trans h.bound, ?_⟩
      · change point ++ "." ++ c.name = _
        rw [h.splits]
        simp only [String.append_assoc]
      · intro longer rest hlonger hlength
        rcases get?_mount_head hpoint hfree hlonger with hnone | ⟨between, rfl, hbetween⟩
        · exact hnone
        · rw [hunder]
          refine h.longest between rest hbetween ?_
          simp only [String.length_append] at hlength
          omega
  | unbound hname h =>
      refine .unbound ((hunder c.name).trans hname) fun head tail hhead => ?_
      rcases get?_mount_head hpoint hfree hhead with hnone | ⟨between, rfl, hbetween⟩
      · exact hnone
      · rw [hunder]
        exact h between tail hbetween

/-- Elsewhere, a call goes where it went before. -/
theorem Targets.mount_outside (other : Api Obj σ) (hpoint : point ≠ "")
    {target : Option (Target Obj σ)} (h : root.Targets ctx c target)
    (hname : ∀ rest, c.name ≠ point ++ "." ++ rest) :
    (root.mount point other).Targets ctx c target := by
  have houtside := get?_mount_outside root other hpoint hname
  have hhead (head tail : String) (hsplits : c.name = head ++ "." ++ tail) :
      Fields.get? (root.mount point other).operations head = Fields.get? root.operations head := by
    apply get?_mount_outside root other hpoint
    rintro rest rfl
    apply hname (rest ++ "." ++ tail)
    simpa only [String.append_assoc] using hsplits
  cases h with
  | bound h => exact .bound (houtside.trans h)
  | dotted hunbound h =>
      refine .dotted (houtside.trans hunbound) ⟨h.splits, ?_, ?_⟩
      · exact (hhead _ _ h.splits).trans h.bound
      · intro longer rest hlonger hlength
        exact (hhead _ _ hlonger).trans (h.longest longer rest hlonger hlength)
  | unbound hunbound h =>
      exact .unbound (houtside.trans hunbound) fun head tail hsplits =>
        (hhead head tail hsplits).trans (h head tail hsplits)

theorem Targets.exists_bound {t : Target Obj σ} (h : other.Targets ctx c (some t)) :
    ∃ name, Fields.get? other.operations name = some t.operation := by
  cases h with
  | bound h => exact ⟨_, h⟩
  | dotted _ h => exact ⟨_, h.bound⟩

/-! Answers behind the point of mount. -/

theorem Targets.perform_under (hblind : other.NameBlind) {target : Option (Target Obj σ)}
    (h : other.Targets ctx c target) (name : String) :
    perform ctx name (target.map (Target.under point)) = perform ctx name target := by
  cases target with
  | none => rfl
  | some t =>
      obtain ⟨bound, hbound⟩ := h.exists_bound
      have hrun : (t.under point).operation (t.under point).invocation = t.operation t.invocation :=
        hblind (bound, t.operation) (Fields.mem_of_get? hbound) t.invocation _
      rw [Option.map_some, perform, hrun]
      rfl

/-- Executes a call alone that goes to a target. What is not reached is
reported under a name. -/
def executeTo (ctx : Context Obj σ) (name : String) (c : Call)
    (target : Option (Target Obj σ)) : Run σ (Fields Json) := do
  Run.ofExcept ctx.checkDeadline
  let v ← settled ctx (perform ctx name target >>= present ctx c)
  return [(c.key, v)]

theorem Targets.execute_eq {target : Option (Target Obj σ)} (h : other.Targets ctx c target) :
    other.execute ctx [c] = executeTo ctx c.name c target := by
  rw [executeTo, ← h.answer_eq]
  rfl

/-- Behind the point, a call alone does what it does on the mounted table. -/
theorem Targets.execute_under (hpoint : point ≠ "") (hfree : root.Free point)
    (hdistinct : other.operationNames.Nodup) (hblind : other.NameBlind)
    {target : Option (Target Obj σ)} (h : other.Targets ctx c target)
    (hlabel : c.label.isSome = true) :
    (root.mount point other).execute ctx [c.under point] =
      executeTo ctx (c.under point).name c target := by
  have hkey : (c.under point).key = c.key := by
    obtain ⟨name, _ | label, params, nested⟩ := c
    · cases hlabel
    · rfl
  rw [(h.mount hpoint hfree hdistinct).execute_eq, executeTo, h.perform_under hblind, hkey]
  rfl

/-- Elsewhere, a request does what it did before. -/
theorem executeCalls_mount_outside (root other : Api Obj σ) (hpoint : point ≠ "")
    (ctx : Context Obj σ) {calls : List Call}
    (hnames : ∀ c ∈ calls, ∀ rest, c.name ≠ point ++ "." ++ rest) (members : Fields Json) :
    (root.mount point other).executeCalls ctx members calls =
      root.executeCalls ctx members calls := by
  induction calls generalizing members with
  | nil => rfl
  | cons c rest ih =>
      obtain ⟨hc, hrest⟩ := List.forall_mem_cons.mp hnames
      obtain ⟨target, htarget, -⟩ := root.exists_targets ctx c
      have hanswer : (root.mount point other).answer ctx c = root.answer ctx c := by
        rw [(htarget.mount_outside other hpoint hc).answer_eq, htarget.answer_eq]
      rw [executeCalls, executeCalls, hanswer]
      simp only [ih hrest]

/-! Results alike but for the name of an unknown operation. -/

/-- Results and states of two runs that are the same, unless both end in an
unknown operation, each under its own name. -/
inductive AlikeBut {α : Type} (name name' : String) :
    Except Failure α × σ → Except Failure α × σ → Prop
  | same (x : Except Failure α × σ) : AlikeBut name name' x x
  | renamed (st : σ) : AlikeBut name name' (.error (.unknownOperation name), st)
      (.error (.unknownOperation name'), st)

theorem AlikeBut.contain (ctx : Context Obj σ) (name name' : String) (st : σ) :
    AlikeBut name name' (ctx.contain (.error (.unknownOperation name)), st)
      (ctx.contain (.error (.unknownOperation name')), st) := by
  cases hmode : ctx.mode with
  | strict =>
      simp only [Scope.contain, hmode]
      exact .renamed st
  | lenient =>
      simp only [Scope.contain, hmode]
      exact .same _

theorem AlikeBut.bind {α β : Type} {name name' : String} {x y : Run σ α} {s : σ}
    (h : AlikeBut name name' (x.exec s) (y.exec s)) (f : α → Run σ β) :
    AlikeBut name name' ((x >>= f).exec s) ((y >>= f).exec s) := by
  generalize hx : x.exec s = first at h
  generalize hy : y.exec s = second at h
  cases h with
  | same =>
      obtain ⟨e | a, st⟩ := first
      · rw [Run.exec_bind_error hx, Run.exec_bind_error hy]
        exact .same _
      · rw [Run.exec_bind_ok hx, Run.exec_bind_ok hy]
        exact .same _
  | renamed st =>
      rw [Run.exec_bind_error hx, Run.exec_bind_error hy]
      exact .renamed st

theorem settled_alike (ctx : Context Obj σ) (name name' : String) (c : Call)
    (target : Option (Target Obj σ)) (st : σ) :
    AlikeBut name name' ((settled ctx (perform ctx name target >>= present ctx c)).exec st)
      ((settled ctx (perform ctx name' target >>= present ctx c)).exec st) := by
  cases target with
  | none => exact .contain ctx name name' st
  | some t =>
      obtain ⟨result, st', hexec⟩ : ∃ result st', (t.operation t.invocation).exec st =
          (result, st') := ⟨_, _, rfl⟩
      cases result with
      | error e =>
          rw [exec_settled (perform_of_error hexec _), exec_settled (perform_of_error hexec _)]
          exact .same _
      | ok v =>
          obtain ⟨walked, hwalks⟩ := exists_walks ctx t.rest v
          cases walked with
          | ok w =>
              have hreached (name : String) :
                  (settled ctx (perform ctx name (some t) >>= present ctx c)).exec st =
                    (settled ctx (present ctx c w)).exec st' :=
                exec_settled (run_bind_of_ok (perform_of_ok hexec hwalks))
              rw [hreached, hreached]
              exact .same _
          | error e =>
              rw [exec_strayed hexec hwalks, exec_strayed hexec hwalks]
              cases e with
              | unknownAttribute typeName field => exact .contain ctx name name' st'
              | _ => exact .same _

theorem executeTo_alike (ctx : Context Obj σ) (name name' : String) (c : Call)
    (target : Option (Target Obj σ)) (st : σ) :
    AlikeBut name name' ((executeTo ctx name c target).exec st)
      ((executeTo ctx name' c target).exec st) := by
  unfold executeTo
  cases hdeadline : ctx.checkDeadline with
  | error e => exact .same (.error e, st)
  | ok =>
      have hchecked : (Run.ofExcept (.ok ())).exec st = (.ok (), st) := rfl
      rw [Run.exec_bind_ok hchecked, Run.exec_bind_ok hchecked]
      exact (settled_alike ctx name name' c target st).bind _

/-- A call behind a point of mount, under a label of its own, goes where it
goes on the mounted table and does the same there, but reports what it does not
reach under the longer name. Requests without calls behind the point do what
they did before. -/
theorem execute_mounted {root other : Api Obj σ} {point : String} (hpoint : point ≠ "")
    (hfree : root.Free point) (hdistinct : other.operationNames.Nodup)
    (hblind : other.NameBlind) :
    (∀ (ctx : Context Obj σ) (c : Call), c.label.isSome = true →
      (∃ target, other.Targets ctx c target ∧
        other.execute ctx [c] = executeTo ctx c.name c target ∧
        (root.mount point other).execute ctx [c.under point] =
          executeTo ctx (c.under point).name c target) ∧
      ∀ st, AlikeBut c.name (c.under point).name ((other.execute ctx [c]).exec st)
        (((root.mount point other).execute ctx [c.under point]).exec st)) ∧
    ∀ (ctx : Context Obj σ) (s : Selection),
      (∀ c ∈ s, ∀ rest, c.name ≠ point ++ "." ++ rest) →
        (root.mount point other).execute ctx s = root.execute ctx s := by
  constructor
  · intro ctx c hlabel
    obtain ⟨target, htarget, -⟩ := other.exists_targets ctx c
    have hother := htarget.execute_eq
    have hmounted := htarget.execute_under hpoint hfree hdistinct hblind hlabel
    refine ⟨⟨target, htarget, hother, hmounted⟩, fun st => ?_⟩
    rw [hother, hmounted]
    exact executeTo_alike ctx c.name (c.under point).name c target st
  · intro ctx s hnames
    exact executeCalls_mount_outside root other hpoint ctx hnames []

end Api

namespace Blog

/-- A binding right beside the point of mount. -/
def sites : Api Host.Record Unit :=
  Api.empty.withOperation "sites.count" fun _ => pure (.int 1)

/-- The blog, behind a point of its own. -/
def region : Api Host.Record Unit := Api.empty.mount "blog" (api "first")

theorem sites_free : sites.Free "sites.eu" := by
  have hnone {name : String} (hname : name ≠ "sites.count") :
      Fields.get? sites.operations name = none := if_neg (Ne.symm hname)
  refine ⟨hnone (by decide), fun head tail h => hnone ?_, fun name => hnone fun h => ?_⟩
  · rintro rfl
    have hlength := congrArg String.length h
    simp only [String.length_append] at hlength
    have hlong : "sites.eu".length < "sites.count".length := by decide
    omega
  · have htext := congrArg String.toList h
    simp [String.toList_append] at htext

theorem region_nameBlind : region.NameBlind := by
  refine Api.All.mount (fun _ hnone => absurd hnone List.not_mem_nil) ?_ "blog"
  exact List.forall_mem_singleton.mpr fun _ _ => rfl

/-- Asks for the kind of the post along a dotted name. -/
def kindCall : Call := ⟨"blog.user.post.kind", some "kind", none, none⟩

theorem region_mounted :
    sites.Free "sites.eu" ∧ region.operationNames.Nodup ∧ region.NameBlind ∧
      kindCall.label.isSome = true ∧
      (∃ target, region.Targets (context denyPosts) kindCall target ∧
        region.execute (context denyPosts) [kindCall] =
          Api.executeTo (context denyPosts) "blog.user.post.kind" kindCall target ∧
        (sites.mount "sites.eu" region).execute (context denyPosts) [kindCall.under "sites.eu"] =
          Api.executeTo (context denyPosts) "sites.eu.blog.user.post.kind" kindCall target) ∧
      (sites.mount "sites.eu" region).execute (context denyPosts) [.ofName "sites.count"] =
        sites.execute (context denyPosts) [.ofName "sites.count"] := by
  have hpoint : "sites.eu" ≠ "" := by decide
  have hempty : (Api.empty : Api Host.Record Unit).operationNames.Nodup := List.nodup_nil
  have hdistinct : region.operationNames.Nodup := Api.nodup_mount hempty "blog" _
  obtain ⟨hunder, houtside⟩ := Api.execute_mounted hpoint sites_free hdistinct region_nameBlind
  refine ⟨sites_free, hdistinct, region_nameBlind, rfl, ?_, ?_⟩
  · exact (hunder (context denyPosts) kindCall rfl).1
  · apply houtside
    rintro c hc rest hname
    obtain rfl := List.mem_singleton.mp hc
    have htext := congrArg String.toList hname
    simp [Call.ofName, String.toList_append] at htext

end Blog

end FieldQuery
