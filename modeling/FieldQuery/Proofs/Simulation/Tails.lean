import FieldQuery.Api
import FieldQuery.Proofs.Selection.Numbers
import FieldQuery.Proofs.Text

/-!
Tails of dotted names below the top level: the segments after the first one.
They are followed by plain member access, which asks neither the whitelist of
an object nor the authorizer. What they read of the objects on their way is
listed here beside the run that reads it. A failure that ends a part of the
answer ends the reads of that part.
-/

namespace FieldQuery

namespace Selection

/-- Calls below the top level. -/
def below (s : Selection) : List Call := s.flatMap fun c => all (c.nested.getD [])

/-- Names that dotted calls below the top level go on with. -/
def tails (s : Selection) : List String := s.below.flatMap fun c => c.path.tail

end Selection

/-- The path of an undotted call is its name. -/
theorem Call.path_of_not_isDotted {c : Call} (h : c.isDotted = false) : c.path = [c.name] := by
  have hdot : '.' ∉ c.name.toList := by
    intro hmem
    have hdotted : c.isDotted = true := List.any_eq_true.mpr ⟨'.', hmem, by simp⟩
    rw [h] at hdotted
    exact absurd hdotted (by simp)
  rw [Call.path, Text.split_of_not_mem hdot]
  simp

variable {Obj σ : Type}

/-- Fields of objects, in the order in which they are read. -/
abbrev Reads (Obj : Type) := List (Obj × String)

namespace Reads

/-- What is read after a step, if the step succeeds. -/
def after {ε α : Type} : Except ε α → (α → Reads Obj) → Reads Obj
  | .ok a, reads => reads a
  | .error _, _ => []

/-- Every field read is one of those followed. -/
def Within (followed : Obj → String → Prop) (reads : Reads Obj) : Prop :=
  ∀ read ∈ reads, followed read.1 read.2

variable {followed : Obj → String → Prop} {first second : Reads Obj}

theorem within_nil : Within followed ([] : Reads Obj) := by simp [Within]

theorem within_append :
    Within followed (first ++ second) ↔ Within followed first ∧ Within followed second := by
  simp only [Within, List.mem_append, or_imp, forall_and]

theorem within_after {ε α : Type} {reads : α → Reads Obj} {result : Except ε α} :
    Within followed (after result reads) ↔ ∀ a, result = .ok a → Within followed (reads a) := by
  cases result <;> simp [after, within_nil]

theorem Within.left (h : Within followed (first ++ second)) : Within followed first :=
  (within_append.mp h).1

theorem Within.right (h : Within followed (first ++ second)) : Within followed second :=
  (within_append.mp h).2

theorem Within.after_ok {ε α : Type} {reads : α → Reads Obj} {result : Except ε α} {a : α}
    (h : Within followed (after result reads)) (hok : result = .ok a) :
    Within followed (reads a) :=
  within_after.mp h a hok

theorem Within.mono {allowed : Obj → String → Prop} (h : Within followed first)
    (hallowed : ∀ o name, followed o name → allowed o name) : Within allowed first :=
  fun read hread => hallowed read.1 read.2 (h read hread)

end Reads

/-- Reads of `Value.follow`. -/
def Value.followReads (domain : Domain Obj) (args : List (Value Obj)) :
    List String → Value Obj → Reads Obj
  | [], _ => []
  | segment :: rest, v =>
      if v.isNull then []
      else (v.asObject?.map fun o => (o, segment)).toList ++
        followReads domain args rest ((v.member? domain segment args).getD .null)

/-- Reads of the tail of a call. -/
def Source.tailReads (scope : Scope Obj) (c : Call) : Source Obj → Reads Obj
  | .map fields =>
      ((Fields.get? fields (c.path.headD "")).getD .null).followReads scope.domain [] c.path.tail
  | .entity e =>
      let args := scope.resolveParams c.args
      Reads.after (e.field (c.path.headD "") args)
        (Value.followReads scope.domain args c.path.tail)

namespace Value

mutual

/-- Reads of `renderWith`, if rendering the fields reads `reads`. -/
def readsWith (ctx : Context Obj σ) (fields : Source Obj → Except Failure Json)
    (reads : Source Obj → Reads Obj) : Value Obj → Reads Obj
  | .map m => reads (.map m)
  | .list items => itemsReads ctx fields reads items
  | .object o => Reads.after (Entity.open? ctx o) fun e => reads (.entity e)
  | _ => []

def itemsReads (ctx : Context Obj σ) (fields : Source Obj → Except Failure Json)
    (reads : Source Obj → Reads Obj) : List (Value Obj) → Reads Obj
  | [] => []
  | v :: rest =>
      readsWith ctx fields reads v ++
        Reads.after (ctx.contain (renderWith ctx fields v)) fun _ =>
          itemsReads ctx fields reads rest

end

end Value

namespace Source

mutual

/-- Reads of all tails of a call, its own first. -/
def callReads (ctx : Context Obj σ) (source : Source Obj) : Call → Reads Obj
  | ⟨name, label, params, none⟩ => source.tailReads ctx.toScope ⟨name, label, params, none⟩
  | ⟨name, label, params, some nested⟩ =>
      let c : Call := ⟨name, label, params, some nested⟩
      source.tailReads ctx.toScope c ++
        Reads.after (source.read ctx.toScope c) fun v =>
          (v.prefetched ctx.domain c.hints).readsWith ctx
            (fun inner => (renderCalls ctx inner [] nested).map .object)
            (fun inner => callsReads ctx inner nested)

def callsReads (ctx : Context Obj σ) (source : Source Obj) : List Call → Reads Obj
  | [] => []
  | c :: rest =>
      callReads ctx source c ++
        Reads.after (ctx.contain (renderCall ctx source c)) fun _ => callsReads ctx source rest

end

end Source

namespace Api

/-- Runs the operation of a call and loads its hints: what `resolve` renders. -/
def load (api : Api Obj σ) (ctx : Context Obj σ) (c : Call) : CallRun σ (Value Obj) := do
  CallRun.ofRun (eagerLoad ctx c.hints (← api.invoke ctx c))

theorem resolve_of_leaf {api : Api Obj σ} (ctx : Context Obj σ) {c : Call} (h : c.nested = none) :
    api.resolve ctx c = api.invoke ctx c >>= fun v => pure v.toLeaf := by
  rw [resolve, h]

theorem resolve_of_nested {api : Api Obj σ} (ctx : Context Obj σ) {c : Call}
    {selection : Selection} (h : c.nested = some selection) :
    api.resolve ctx c =
      api.load ctx c >>= fun v => .ofExcept (v.render ctx (some selection)) := by
  rw [resolve, h, load, bind_assoc]

/-- Reads of all tails below a top-level call. -/
def answerReads (api : Api Obj σ) (ctx : Context Obj σ) (c : Call) (s : σ) : Reads Obj :=
  match c.nested with
  | none => []
  | some selection =>
      Reads.after ((api.load ctx c).run.run s).1 fun v =>
        v.readsWith ctx (fun source => (source.renderCalls ctx [] selection).map .object)
          (fun source => source.callsReads ctx selection)

/-- Reads of all tails of a request that starts in a state. -/
def tailReads (api : Api Obj σ) (ctx : Context Obj σ) : Selection → σ → Reads Obj
  | [], _ => []
  | c :: rest, s =>
      Reads.after ctx.checkDeadline fun _ =>
        api.answerReads ctx c s ++
          Reads.after ((api.answer ctx c).exec s).1 fun _ =>
            tailReads api ctx rest ((api.answer ctx c).exec s).2

end Api

/-! Tails read nothing but the names that stand in them. -/

theorem Value.within_followReads (domain : Domain Obj) (args : List (Value Obj))
    (path : List String) (v : Value Obj) :
    (v.followReads domain args path).Within fun _ name => name ∈ path := by
  induction path generalizing v with
  | nil => exact Reads.within_nil
  | cons segment path ih =>
      rw [followReads]
      split
      next => exact Reads.within_nil
      next =>
        refine Reads.within_append.mpr ⟨fun read hread => ?_, (ih _).mono ?_⟩
        · obtain ⟨o, -, rfl⟩ := Option.map_eq_some_iff.mp (Option.mem_toList.mp hread)
          exact List.mem_cons_self
        · exact fun _ name hname => List.mem_cons_of_mem _ hname

theorem Source.within_tailReads (scope : Scope Obj) (c : Call) (source : Source Obj) :
    (source.tailReads scope c).Within fun _ name => name ∈ c.path.tail := by
  cases source with
  | map fields => exact Value.within_followReads _ _ _ _
  | entity e => exact Reads.within_after.mpr fun v _ => Value.within_followReads _ _ _ _

section

variable {ctx : Context Obj σ} {fields : Source Obj → Except Failure Json}
  {reads : Source Obj → Reads Obj} {followed : Obj → String → Prop}

mutual

theorem Value.within_readsWith (h : ∀ source, (reads source).Within followed) :
    (v : Value Obj) → (v.readsWith ctx fields reads).Within followed
  | .map m => h (.map m)
  | .list items => within_itemsReads h items
  | .object _ => Reads.within_after.mpr fun e _ => h (.entity e)
  | .null | .bool _ | .int _ | .float _ | .string _ => Reads.within_nil

theorem Value.within_itemsReads (h : ∀ source, (reads source).Within followed) :
    (items : List (Value Obj)) → (itemsReads ctx fields reads items).Within followed
  | [] => Reads.within_nil
  | v :: rest =>
      Reads.within_append.mpr ⟨within_readsWith h v,
        Reads.within_after.mpr fun _ _ => within_itemsReads h rest⟩

end

end

mutual

theorem Source.within_callReads (ctx : Context Obj σ) (source : Source Obj) :
    (c : Call) → (source.callReads ctx c).Within
      fun _ name => name ∈ c.all.flatMap fun d => d.path.tail
  | ⟨name, label, params, none⟩ =>
      (source.within_tailReads _ _).mono fun _ _ hname =>
        List.mem_flatMap.mpr ⟨_, Call.mem_all_self _, hname⟩
  | ⟨name, label, params, some nested⟩ => by
      refine Reads.within_append.mpr ⟨?_, Reads.within_after.mpr fun v _ => ?_⟩
      · exact (source.within_tailReads _ _).mono fun _ _ hname =>
          List.mem_flatMap.mpr ⟨_, Call.mem_all_self _, hname⟩
      · refine Reads.Within.mono ?_ fun _ _ hname => List.mem_append_right _ hname
        exact Value.within_readsWith (fun inner => within_callsReads ctx inner nested) _

theorem Source.within_callsReads (ctx : Context Obj σ) (source : Source Obj) :
    (calls : List Call) → (source.callsReads ctx calls).Within
      fun _ name => name ∈ (Selection.all calls).flatMap fun d => d.path.tail
  | [] => Reads.within_nil
  | c :: rest => by
      rw [Selection.all, List.flatMap_append]
      refine Reads.within_append.mpr ⟨?_, Reads.within_after.mpr fun _ _ => ?_⟩
      · exact (within_callReads ctx source c).mono fun _ _ => List.mem_append_left _
      · exact (within_callsReads ctx source rest).mono fun _ _ => List.mem_append_right _

end

theorem Api.within_answerReads (api : Api Obj σ) (ctx : Context Obj σ) (c : Call) (s : σ) :
    (api.answerReads ctx c s).Within fun _ name => name ∈ Selection.tails [c] := by
  unfold answerReads
  split
  next => exact Reads.within_nil
  next selection hnested =>
    have htails : Selection.tails [c] =
        (Selection.all selection).flatMap fun d => d.path.tail := by
      simp [Selection.tails, Selection.below, hnested]
    rw [htails]
    exact Reads.within_after.mpr fun v _ =>
      Value.within_readsWith (fun source => source.within_callsReads ctx selection) v

theorem Api.within_tailReads (api : Api Obj σ) (ctx : Context Obj σ) (selection : Selection)
    (s : σ) : (api.tailReads ctx selection s).Within fun _ name => name ∈ selection.tails := by
  induction selection generalizing s with
  | nil => exact Reads.within_nil
  | cons c rest ih =>
      have hsplit : Selection.tails (c :: rest) = Selection.tails [c] ++ Selection.tails rest := by
        simp [Selection.tails, Selection.below]
      rw [hsplit]
      refine Reads.within_after.mpr fun _ _ => Reads.within_append.mpr ⟨?_, ?_⟩
      · exact (within_answerReads api ctx c s).mono fun _ _ => List.mem_append_left _
      · exact Reads.within_after.mpr fun _ _ => (ih _).mono fun _ _ => List.mem_append_right _

/-- Without dotted names below the top level, no tail reads anything. -/
theorem Api.tailReads_of_undotted (api : Api Obj σ) (ctx : Context Obj σ) {selection : Selection}
    (h : ∀ c ∈ selection.below, c.isDotted = false) (s : σ) :
    api.tailReads ctx selection s = [] := by
  refine List.eq_nil_iff_forall_not_mem.mpr fun read hread => ?_
  obtain ⟨c, hc, htail⟩ := List.mem_flatMap.mp (api.within_tailReads ctx selection s read hread)
  rw [Call.path_of_not_isDotted (h c hc)] at htail
  simp at htail

end FieldQuery
