import FieldQuery.Proofs.Selection.Merge

/-!
Calls at all levels of a selection, and the numbers among their parameters.
Merging makes up no names, labels or parameters, and a call without NaN has its
own signature.
-/

namespace FieldQuery

mutual

/-- A call and the calls in its group, at all levels. -/
def Call.all : Call → List Call
  | ⟨name, label, params, none⟩ => [⟨name, label, params, none⟩]
  | ⟨name, label, params, some nested⟩ => ⟨name, label, params, some nested⟩ :: Selection.all nested

def Selection.all : List Call → List Call
  | [] => []
  | c :: rest => c.all ++ Selection.all rest

end

theorem Call.all_eq (c : Call) : c.all = c :: Selection.all (c.nested.getD []) := by
  obtain ⟨name, label, params, nested⟩ := c
  cases nested <;> simp [all, Selection.all]

theorem Call.mem_all_self (c : Call) : c ∈ c.all := by
  simp [all_eq]

theorem Selection.all_subset {s : Selection} {c : Call} (hc : c ∈ s) : c.all ⊆ all s := by
  induction s with
  | nil => cases hc
  | cons d rest ih =>
      rw [all]
      rcases List.mem_cons.mp hc with rfl | hrest
      · exact List.subset_append_left _ _
      · exact List.subset_append_of_subset_right _ (ih hrest)

/-- The call without its group. -/
def Call.head (c : Call) : Call := { c with nested := none }

namespace Selection

/-! Merging makes up no heads. -/

/-- What `P` says is true of the head of every call at every level. -/
def Heads (P : Call → Prop) (s : Selection) : Prop := ∀ c ∈ all s, P c.head

variable {P : Call → Prop}

theorem heads_nil : Heads P [] := by simp [Heads, all]

theorem heads_cons {c : Call} {s : Selection} :
    Heads P (c :: s) ↔ P c.head ∧ Heads P (c.nested.getD []) ∧ s.Heads P := by
  simp only [Heads, all, Call.all_eq, List.cons_append, List.forall_mem_cons, List.forall_mem_append]

theorem heads_singleton {c : Call} : Heads P [c] ↔ P c.head ∧ Heads P (c.nested.getD []) := by
  rw [heads_cons, and_iff_left heads_nil]

/-- What holds of the heads of a selection and of these calls goes on to hold
when the calls are merged into it. -/
def KeepsHeads (P : Call → Prop) (calls : List Call) : Prop :=
  ∀ s : Selection, s.Heads P → (s.merge calls).Heads P

theorem head_absorb (d c : Call) : (d.absorb c).head = d.head := by
  unfold Call.absorb
  split <;> rfl

theorem heads_absorb {d c : Call}
    (hinner : ∀ calls, c.nested = some calls → KeepsHeads P calls)
    (hd : Heads P (d.nested.getD [])) : Heads P ((d.absorb c).nested.getD []) := by
  unfold Call.absorb
  cases hc : c.nested with
  | none => exact hd
  | some calls => exact hinner calls hc _ hd

theorem heads_withCall {c : Call} (hc : Heads P [c])
    (hinner : ∀ calls, c.nested = some calls → KeepsHeads P calls) {s : Selection}
    (hs : s.Heads P) : (s.withCall c).Heads P := by
  induction s with
  | nil => rwa [withCall_nil]
  | cons d rest ih =>
      obtain ⟨hd, hnested, hrest⟩ := heads_cons.mp hs
      rw [withCall_cons]
      split
      · refine heads_cons.mpr ⟨?_, heads_absorb hinner hnested, hrest⟩
        rwa [head_absorb]
      · exact heads_cons.mpr ⟨hd, hnested, ih hrest⟩

mutual

theorem keepsHeads_nested : ∀ c : Call, Heads P [c] →
    ∀ calls, c.nested = some calls → KeepsHeads P calls
  | ⟨_, _, _, none⟩, _, _, h => by simp at h
  | ⟨_, _, _, some calls⟩, hc, _, h => by
      obtain rfl := Option.some.inj h
      exact keepsHeads calls (heads_singleton.mp hc).2

theorem keepsHeads : ∀ calls : List Call, Heads P calls → KeepsHeads P calls
  | [], _ => fun _ hs => hs
  | c :: rest, h => by
      obtain ⟨hc, hnested, hrest⟩ := heads_cons.mp h
      have hown := heads_singleton.mpr ⟨hc, hnested⟩
      intro s hs
      exact keepsHeads rest hrest _ (heads_withCall hown (keepsHeads_nested c hown) hs)

end

end Selection

def Param.number? : Param → Option Double
  | .number x => some x
  | _ => none

/-- Numbers among the parameters of a call. -/
def Call.numbers (c : Call) : List Double := c.args.filterMap Param.number?

namespace Selection

/-- Numbers among the parameters at all levels. -/
def numbers (s : Selection) : List Double := (all s).flatMap Call.numbers

def NaNFree (s : Selection) : Prop := ∀ x ∈ s.numbers, x.isNaN = false

@[simp] theorem numbers_nil : numbers [] = [] := rfl

@[simp] theorem numbers_cons (c : Call) (s : Selection) :
    numbers (c :: s) = c.numbers ++ numbers (c.nested.getD []) ++ s.numbers := by
  simp [numbers, all, Call.all_eq]

theorem numbers_split (c : Call) (s : Selection) : numbers (c :: s) = numbers [c] ++ s.numbers := by
  simp

theorem forall_mem_numbers {s : Selection} {P : Double → Prop} :
    (∀ x ∈ s.numbers, P x) ↔ s.Heads fun c => ∀ x ∈ c.numbers, P x := by
  simp only [numbers, List.mem_flatMap, forall_exists_index, and_imp]
  exact ⟨fun h c hc x hx => h x c hc hx, fun h x c hc hx => h c hc x hx⟩

theorem NaNFree.nested {s : Selection} (h : s.NaNFree) {c : Call} (hc : c ∈ s) :
    NaNFree (c.nested.getD []) := by
  intro x hx
  obtain ⟨d, hd, hxd⟩ := List.mem_flatMap.mp hx
  have hall : d ∈ c.all := by
    rw [Call.all_eq]
    exact List.mem_cons_of_mem c hd
  exact h x (List.mem_flatMap.mpr ⟨d, all_subset hc hall, hxd⟩)

end Selection

/-! Signatures without NaN. -/

theorem Double.same_self {x : Double} (h : x.isNaN = false) : x.same x = true := by
  simp [Double.same, h]

theorem Param.same_self {p : Param} (h : ∀ x, p = .number x → x.isNaN = false) :
    p.same p = true := by
  cases p with
  | named name => simp [Param.same]
  | number x => exact Double.same_self (h x rfl)
  | literal text => simp [Param.same]

namespace Call

theorem sameParams_self {params : List Param}
    (h : ∀ x ∈ params.filterMap Param.number?, x.isNaN = false) :
    sameParams params params = true := by
  induction params with
  | nil => rfl
  | cons p rest ih =>
      rw [sameParams, Bool.and_eq_true]
      constructor
      · apply Param.same_self
        rintro x rfl
        exact h x (by simp [Param.number?])
      · apply ih
        intro x hx
        obtain ⟨q, hq, hqx⟩ := List.mem_filterMap.mp hx
        exact h x (List.mem_filterMap.mpr ⟨q, List.mem_cons_of_mem p hq, hqx⟩)

theorem sameSignature_self {c : Call} (h : ∀ x ∈ c.numbers, x.isNaN = false) :
    c.sameSignature c = true := by
  have hparams : sameOptionalParams c.params c.params = true := by
    unfold numbers args at h
    cases hc : c.params with
    | none => rfl
    | some params => exact sameParams_self (by simpa [hc] using h)
  simp [sameSignature, hparams]

end Call

theorem Selection.NaNFree.sameSignature_self {s : Selection} (h : s.NaNFree) {c : Call}
    (hc : c ∈ s) : c.sameSignature c = true := by
  apply Call.sameSignature_self
  intro x hx
  exact h x (List.mem_flatMap.mpr ⟨c, all_subset hc (Call.mem_all_self c), hx⟩)

end FieldQuery
