import FieldQuery.Selection.Basic

/-!
Merging selections. Insertion is read here as a walk along the calls of one
level: the first call with the signature of the inserted one absorbs it, and
without such a call it goes to the end. Trees in which no level repeats a
signature are closed under insertion, and merging into them is associative.
-/

namespace FieldQuery

theorem Double.same_symm {x y : Double} (h : x.same y = true) : y.same x = true := by
  simp only [Double.same, Bool.and_eq_true, Bool.or_eq_true, beq_iff_eq, Bool.not_eq_true'] at h ⊢
  obtain ⟨⟨hx, hy⟩, heq⟩ := h
  refine ⟨⟨hy, hx⟩, ?_⟩
  rcases heq with heq | heq
  · exact Or.inl heq.symm
  · exact Or.inr heq.symm

theorem Double.same_trans {x y z : Double} (hxy : x.same y = true) (hyz : y.same z = true) :
    x.same z = true := by
  simp only [Double.same, Bool.and_eq_true, Bool.or_eq_true, beq_iff_eq, Bool.not_eq_true']
    at hxy hyz ⊢
  obtain ⟨⟨hx, _⟩, hxy⟩ := hxy
  obtain ⟨⟨_, hz⟩, hyz⟩ := hyz
  refine ⟨⟨hx, hz⟩, ?_⟩
  have heq {u v : Double} (huv : u.bits = v.bits) : u = v := by
    cases u
    cases v
    exact congrArg Double.mk huv
  rcases hxy with hxy | hxy
  · rw [heq hxy]
    exact hyz
  · rcases hyz with hyz | hyz
    · rw [← heq hyz]
      exact Or.inr hxy
    · exact Or.inr ⟨hxy.1, hyz.2⟩

namespace Param

theorem same_symm {x y : Param} (h : x.same y = true) : y.same x = true := by
  cases x <;> cases y <;> simp only [Param.same, beq_iff_eq, Bool.false_eq_true] at h ⊢
  · exact h.symm
  · exact Double.same_symm h
  · exact h.symm

theorem same_trans {x y z : Param} (hxy : x.same y = true) (hyz : y.same z = true) :
    x.same z = true := by
  cases x <;> cases y <;> cases z <;>
    simp only [Param.same, beq_iff_eq, Bool.false_eq_true] at hxy hyz ⊢
  · exact hxy.trans hyz
  · exact Double.same_trans hxy hyz
  · exact hxy.trans hyz

end Param

namespace Call

theorem sameParams_symm {xs ys : List Param} (h : sameParams xs ys = true) :
    sameParams ys xs = true := by
  induction xs generalizing ys with
  | nil =>
      cases ys with
      | nil => rfl
      | cons _ _ => simp [sameParams] at h
  | cons x xs ih =>
      cases ys with
      | nil => simp [sameParams] at h
      | cons y ys =>
          simp only [sameParams, Bool.and_eq_true] at h ⊢
          exact ⟨Param.same_symm h.1, ih h.2⟩

theorem sameParams_trans {xs ys zs : List Param} (hxy : sameParams xs ys = true)
    (hyz : sameParams ys zs = true) : sameParams xs zs = true := by
  induction xs generalizing ys zs with
  | nil =>
      cases ys with
      | nil => exact hyz
      | cons _ _ => simp [sameParams] at hxy
  | cons x xs ih =>
      cases ys with
      | nil => simp [sameParams] at hxy
      | cons y ys =>
          cases zs with
          | nil => simp [sameParams] at hyz
          | cons z zs =>
              simp only [sameParams, Bool.and_eq_true] at hxy hyz ⊢
              exact ⟨Param.same_trans hxy.1 hyz.1, ih hxy.2 hyz.2⟩

theorem sameOptionalParams_symm {p q : Option (List Param)}
    (h : sameOptionalParams p q = true) : sameOptionalParams q p = true := by
  cases p <;> cases q <;> simp only [sameOptionalParams, Bool.false_eq_true] at h ⊢
  exact sameParams_symm h

theorem sameOptionalParams_trans {p q r : Option (List Param)}
    (hpq : sameOptionalParams p q = true) (hqr : sameOptionalParams q r = true) :
    sameOptionalParams p r = true := by
  cases p <;> cases q <;> cases r <;>
    simp only [sameOptionalParams, Bool.false_eq_true] at hpq hqr ⊢
  exact sameParams_trans hpq hqr

theorem sameSignature_symm {c d : Call} (h : c.sameSignature d = true) :
    d.sameSignature c = true := by
  simp only [sameSignature, Bool.and_eq_true, beq_iff_eq] at h ⊢
  exact ⟨⟨h.1.1.symm, h.1.2.symm⟩, sameOptionalParams_symm h.2⟩

theorem sameSignature_trans {c d e : Call} (hcd : c.sameSignature d = true)
    (hde : d.sameSignature e = true) : c.sameSignature e = true := by
  simp only [sameSignature, Bool.and_eq_true, beq_iff_eq] at hcd hde ⊢
  exact ⟨⟨hcd.1.1.trans hde.1.1, hcd.1.2.trans hde.1.2⟩, sameOptionalParams_trans hcd.2 hde.2⟩

/-- Calls of one signature cannot be told apart by a third one. -/
theorem sameSignature_congr {c d : Call} (h : c.sameSignature d = true) (e : Call) :
    e.sameSignature c = e.sameSignature d := by
  rw [Bool.eq_iff_iff]
  constructor
  · intro hec
    exact sameSignature_trans hec h
  · intro hed
    exact sameSignature_trans hed (sameSignature_symm h)

/-- The call with the group of another call merged into its own. -/
def absorb (d c : Call) : Call :=
  match c.nested with
  | none => d
  | some calls => { d with nested := some (Selection.merge (d.nested.getD []) calls) }

@[simp] theorem absorb_sameSignature (d c e : Call) :
    (d.absorb c).sameSignature e = d.sameSignature e := by
  unfold absorb
  split <;> rfl

@[simp] theorem sameSignature_absorb (d c e : Call) :
    e.sameSignature (d.absorb c) = e.sameSignature d := by
  unfold absorb
  split <;> rfl

end Call

namespace Selection

theorem withCall_eq (s : Selection) (c : Call) :
    s.withCall c =
      match s.place? c with
      | none => s ++ [c]
      | some place => s.modify place (·.absorb c) := by
  obtain ⟨name, label, params, nested⟩ := c
  rw [withCall]
  cases s.place? ⟨name, label, params, nested⟩ with
  | none => rfl
  | some place =>
      cases nested with
      | none => exact (List.modify_id place s).symm
      | some calls => rfl

@[simp] theorem withCall_nil (c : Call) : withCall [] c = [c] := by
  rw [withCall_eq]
  rfl

/-- Insertion along one level. -/
theorem withCall_cons (d : Call) (s : Selection) (c : Call) :
    withCall (d :: s) c =
      if d.sameSignature c then d.absorb c :: s else d :: s.withCall c := by
  rw [withCall_eq, withCall_eq, place?, place?, List.findIdx?_cons]
  by_cases hd : d.sameSignature c = true
  · simp [hd]
  · simp only [hd, Bool.false_eq_true, if_false]
    cases List.findIdx? (·.sameSignature c) s <;> rfl

/-- Some call of the selection has the signature of `c`. -/
def Holds (s : Selection) (c : Call) : Prop := ∃ d ∈ s, d.sameSignature c = true

theorem Holds.withCall {s : Selection} {c : Call} (h : s.Holds c) (a : Call) :
    (s.withCall a).Holds c := by
  induction s with
  | nil =>
      obtain ⟨d, hd, _⟩ := h
      simp at hd
  | cons d rest ih =>
      rw [withCall_cons]
      obtain ⟨e, he, hec⟩ := h
      rcases List.mem_cons.mp he with rfl | he
      · split
        · exact ⟨e.absorb a, List.mem_cons_self, by rwa [Call.absorb_sameSignature]⟩
        · exact ⟨e, List.mem_cons_self, hec⟩
      · split
        · exact ⟨e, List.mem_cons_of_mem _ he, hec⟩
        · obtain ⟨f, hf, hfc⟩ := ih ⟨e, he, hec⟩
          exact ⟨f, List.mem_cons_of_mem _ hf, hfc⟩

theorem holds_withCall_of_same {d c : Call} (s : Selection) (h : d.sameSignature c = true) :
    (s.withCall d).Holds c := by
  induction s with
  | nil => exact ⟨d, by simp, h⟩
  | cons e rest ih =>
      rw [withCall_cons]
      split
      next hed =>
        refine ⟨e.absorb d, List.mem_cons_self, ?_⟩
        rw [Call.absorb_sameSignature]
        exact Call.sameSignature_trans hed h
      next =>
        obtain ⟨f, hf, hfc⟩ := ih
        exact ⟨f, List.mem_cons_of_mem _ hf, hfc⟩

theorem mem_withCall {s : Selection} {c e : Call} (h : e ∈ s.withCall c) :
    e = c ∨ ∃ d ∈ s, e = d ∨ e = d.absorb c := by
  induction s with
  | nil => exact Or.inl (by simpa using h)
  | cons d rest ih =>
      rw [withCall_cons] at h
      split at h
      · rcases List.mem_cons.mp h with rfl | he
        · exact Or.inr ⟨d, List.mem_cons_self, Or.inr rfl⟩
        · exact Or.inr ⟨e, List.mem_cons_of_mem _ he, Or.inl rfl⟩
      · rcases List.mem_cons.mp h with rfl | he
        · exact Or.inr ⟨e, List.mem_cons_self, Or.inl rfl⟩
        · rcases ih he with rfl | ⟨f, hf, hef⟩
          · exact Or.inl rfl
          · exact Or.inr ⟨f, List.mem_cons_of_mem _ hf, hef⟩

/-- A call that is already there can be inserted before or after another one
of a different signature. -/
theorem withCall_comm {s : Selection} {a c : Call} (hne : a.sameSignature c = false)
    (hc : s.Holds c) : (s.withCall a).withCall c = (s.withCall c).withCall a := by
  induction s with
  | nil =>
      obtain ⟨d, hd, _⟩ := hc
      simp at hd
  | cons d rest ih =>
      by_cases hda : d.sameSignature a = true
      · have hdc : d.sameSignature c = false := by
          rw [Bool.eq_false_iff]
          intro hdc
          have hac := Call.sameSignature_trans (Call.sameSignature_symm hda) hdc
          simp [hne] at hac
        simp [withCall_cons, hda, hdc]
      · by_cases hdc : d.sameSignature c = true
        · simp [withCall_cons, hda, hdc]
        · have hrest : Holds rest c := by
            obtain ⟨e, he, hec⟩ := hc
            rcases List.mem_cons.mp he with rfl | he
            · exact absurd hec hdc
            · exact ⟨e, he, hec⟩
          simp [withCall_cons, hda, hdc, ih hrest]

theorem withCalls_comm {calls : List Call} {c : Call}
    (hne : ∀ a ∈ calls, a.sameSignature c = false) {s : Selection} (hc : s.Holds c) :
    (s.withCalls calls).withCall c = (s.withCall c).withCalls calls := by
  induction calls generalizing s with
  | nil => rfl
  | cons a rest ih =>
      have hrest : ∀ b ∈ rest, b.sameSignature c = false := by
        intro b hb
        exact hne b (List.mem_cons_of_mem a hb)
      rw [withCalls, withCalls, ih hrest (hc.withCall a),
        withCall_comm (hne a List.mem_cons_self) hc]

mutual

/-- No level below the call repeats a signature. -/
def CallWellFormed : Call → Prop
  | ⟨_, _, _, none⟩ => True
  | ⟨_, _, _, some calls⟩ => WellFormed calls

/-- No level of the selection repeats a signature. -/
def WellFormed : List Call → Prop
  | [] => True
  | c :: rest =>
      CallWellFormed c ∧ (∀ d ∈ rest, c.sameSignature d = false) ∧ WellFormed rest

end

theorem WellFormed.nested {c : Call} (h : CallWellFormed c) : WellFormed (c.nested.getD []) := by
  obtain ⟨name, label, params, nested⟩ := c
  cases nested with
  | none => trivial
  | some calls => exact h

theorem WellFormed.mem {s : Selection} (h : WellFormed s) : ∀ c ∈ s, CallWellFormed c := by
  induction s with
  | nil => simp
  | cons d rest ih =>
      intro c hc
      rcases List.mem_cons.mp hc with rfl | hc
      · exact h.1
      · exact ih h.2.2 c hc

/-- Selections without repeated signatures stay so when the calls are merged
into them, and merging the calls is associative. -/
structure MergesWell (calls : List Call) : Prop where
  wellFormed : ∀ s : Selection, WellFormed s → WellFormed (s.merge calls)
  assoc : ∀ s t : Selection, WellFormed t → (s.merge t).merge calls = s.merge (t.merge calls)

theorem absorb_wellFormed {d c : Call} (h : ∀ calls, c.nested = some calls → MergesWell calls)
    (hd : CallWellFormed d) : CallWellFormed (d.absorb c) := by
  unfold Call.absorb
  cases hc : c.nested with
  | none => exact hd
  | some calls => exact (h calls hc).wellFormed _ (WellFormed.nested hd)

theorem absorb_absorb {d c : Call} (h : ∀ calls, c.nested = some calls → MergesWell calls)
    (hd : CallWellFormed d) (e : Call) : (e.absorb d).absorb c = e.absorb (d.absorb c) := by
  unfold Call.absorb
  cases hc : c.nested with
  | none => rfl
  | some calls =>
      have hassoc := (h calls hc).assoc (e.nested.getD []) _ (WellFormed.nested hd)
      cases hdn : d.nested with
      | none =>
          rw [hdn] at hassoc
          exact congrArg (fun inner => { e with nested := some inner }) hassoc
      | some inner =>
          rw [hdn] at hassoc
          exact congrArg (fun inner => { e with nested := some inner }) hassoc

/-- Two calls of one signature may be united before they are inserted. -/
theorem withCall_absorb {d c : Call} (hdc : d.sameSignature c = true)
    (h : ∀ calls, c.nested = some calls → MergesWell calls) (hd : CallWellFormed d)
    (s : Selection) : (s.withCall d).withCall c = s.withCall (d.absorb c) := by
  induction s with
  | nil => simp [withCall_cons, hdc]
  | cons e rest ih =>
      rw [withCall_cons, withCall_cons, Call.sameSignature_absorb]
      by_cases hed : e.sameSignature d = true
      · have hec := Call.sameSignature_trans hed hdc
        simp [hed, withCall_cons, hec, absorb_absorb h hd]
      · have hec : ¬ e.sameSignature c = true := by
          rwa [← Call.sameSignature_congr hdc]
        simp [hed, withCall_cons, hec, ih]

theorem withCall_wellFormed {s : Selection} {c : Call}
    (h : ∀ calls, c.nested = some calls → MergesWell calls) (hs : WellFormed s)
    (hc : CallWellFormed c) : WellFormed (s.withCall c) := by
  induction s with
  | nil =>
      rw [withCall_nil]
      exact ⟨hc, by simp, trivial⟩
  | cons d rest ih =>
      obtain ⟨hd, hdistinct, hrest⟩ := hs
      rw [withCall_cons]
      split
      next =>
        refine ⟨absorb_wellFormed h hd, ?_, hrest⟩
        intro e he
        rw [Call.absorb_sameSignature]
        exact hdistinct e he
      next hdc =>
        refine ⟨hd, ?_, ih hrest⟩
        intro e he
        rcases mem_withCall he with rfl | ⟨f, hf, rfl | rfl⟩
        · simpa using hdc
        · exact hdistinct e hf
        · rw [Call.sameSignature_absorb]
          exact hdistinct f hf

/-- Merging a selection that has one more call is inserting that call last. -/
theorem merge_withCall {c : Call} (h : ∀ calls, c.nested = some calls → MergesWell calls)
    {t : Selection} (ht : WellFormed t) (s : Selection) :
    s.merge (t.withCall c) = (s.merge t).withCall c := by
  induction t generalizing s with
  | nil => rw [withCall_nil]; rfl
  | cons d rest ih =>
      obtain ⟨hd, hdistinct, hrest⟩ := ht
      rw [withCall_cons]
      split
      next hdc =>
        have hne : ∀ a ∈ rest, a.sameSignature c = false := by
          intro a ha
          rw [Bool.eq_false_iff]
          intro hac
          have hda := Call.sameSignature_trans hdc (Call.sameSignature_symm hac)
          simp [hdistinct a ha] at hda
        calc
          s.merge (d.absorb c :: rest) = (s.withCall (d.absorb c)).withCalls rest := rfl
          _ = ((s.withCall d).withCall c).withCalls rest := by rw [withCall_absorb hdc h hd]
          _ = ((s.withCall d).withCalls rest).withCall c :=
            (withCalls_comm hne (holds_withCall_of_same s hdc)).symm
          _ = (s.merge (d :: rest)).withCall c := rfl
      next => exact ih hrest (s.withCall d)

theorem mergesWell_of {calls : List Call}
    (h : ∀ c ∈ calls, CallWellFormed c ∧ ∀ inner, c.nested = some inner → MergesWell inner) :
    MergesWell calls := by
  induction calls with
  | nil => exact ⟨fun _ hs => hs, fun _ _ _ => rfl⟩
  | cons c rest ih =>
      obtain ⟨hc, hinner⟩ := h c List.mem_cons_self
      have hrest := ih fun d hd => h d (List.mem_cons_of_mem c hd)
      constructor
      · intro s hs
        exact hrest.wellFormed _ (withCall_wellFormed hinner hs hc)
      · intro s t ht
        calc
          (s.merge t).merge (c :: rest) = ((s.merge t).withCall c).merge rest := rfl
          _ = (s.merge (t.withCall c)).merge rest := by rw [merge_withCall hinner ht]
          _ = s.merge ((t.withCall c).merge rest) :=
            hrest.assoc s _ (withCall_wellFormed hinner ht hc)
          _ = s.merge (t.merge (c :: rest)) := rfl

mutual

theorem mergesWell_nested : ∀ c : Call, CallWellFormed c →
    ∀ inner, c.nested = some inner → MergesWell inner
  | ⟨_, _, _, none⟩, _, _, h => by simp at h
  | ⟨_, _, _, some calls⟩, hc, inner, h => by
      obtain rfl : calls = inner := by simpa using h
      exact mergesWell_of (mergesWell_mem calls (WellFormed.mem hc))

theorem mergesWell_mem : ∀ calls : List Call, (∀ c ∈ calls, CallWellFormed c) →
    ∀ c ∈ calls, CallWellFormed c ∧ ∀ inner, c.nested = some inner → MergesWell inner
  | [], _ => by simp
  | d :: rest, h => by
      have hd := h d List.mem_cons_self
      have hrest := mergesWell_mem rest fun e he => h e (List.mem_cons_of_mem d he)
      exact List.forall_mem_cons.mpr ⟨⟨hd, mergesWell_nested d hd⟩, hrest⟩

end

/-- Calls without repeated signatures below them merge well, whatever repeats
among the calls themselves. -/
theorem mergesWell {calls : List Call} (h : ∀ c ∈ calls, CallWellFormed c) : MergesWell calls :=
  mergesWell_of (mergesWell_mem calls h)

theorem merge_assoc {t : Selection} {calls : List Call} (ht : WellFormed t)
    (hcalls : ∀ c ∈ calls, CallWellFormed c) (s : Selection) :
    (s.merge t).merge calls = s.merge (t.merge calls) :=
  (mergesWell hcalls).assoc s t ht

theorem insert_wellFormed {s : Selection} {c : Call} (hs : WellFormed s)
    (hc : CallWellFormed c) : WellFormed (s.insert c) :=
  withCall_wellFormed (mergesWell_nested c hc) hs hc

theorem merge_wellFormed {s : Selection} {calls : List Call} (hs : WellFormed s)
    (hcalls : ∀ c ∈ calls, CallWellFormed c) : WellFormed (s.merge calls) :=
  (mergesWell hcalls).wellFormed s hs

theorem ofCalls_wellFormed {calls : List Call} (h : ∀ c ∈ calls, CallWellFormed c) :
    WellFormed (ofCalls calls) :=
  merge_wellFormed trivial h

theorem insertPlace_cons (d : Call) (s : Selection) (c : Call) :
    insertPlace (d :: s) c = if d.sameSignature c then 0 else s.insertPlace c + 1 := by
  rw [insertPlace, insertPlace, place?, place?, List.findIdx?_cons]
  split
  · rfl
  · cases List.findIdx? (·.sameSignature c) s <;> rfl

/-- Filling the group of a call that was just inserted flat is inserting the
call with its own merged group. -/
theorem editNested_insert {c : Call} (hflat : c.nested = none) {calls : List Call}
    (hcalls : ∀ d ∈ calls, CallWellFormed d) (s : Selection) :
    (s.insert c).editNested (s.insertPlace c) (·.merge calls) =
      s.insert (c.withNested calls) := by
  have hsame (d : Call) : d.sameSignature (c.withNested calls) = d.sameSignature c := rfl
  induction s with
  | nil =>
      rw [insert, insert, withCall_nil, withCall_nil]
      simp [insertPlace, place?, editNested, Call.withNested, hflat, ofCalls]
  | cons d rest ih =>
      rw [insert, insert, withCall_cons, withCall_cons, insertPlace_cons, hsame]
      split
      next =>
        have hgroup : merge (d.nested.getD []) calls = merge (d.nested.getD []) (ofCalls calls) :=
          merge_assoc (t := []) trivial hcalls _
        simpa [editNested, Call.absorb, hflat, Call.withNested] using hgroup
      next => simpa [editNested, insert] using ih

end Selection

end FieldQuery
