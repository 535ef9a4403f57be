import FieldQuery.Proofs.Schema.Compile
import FieldQuery.Proofs.Selection.Numbers
import Mathlib.Tactic.Tauto

/-!
Merging as union. What leads to a call from the root is told by the signatures
of the calls on the way, and a merged selection has just the ways of both its
sides. Selections that are built by compiling, collecting and inserting repeat
no signature, and on such selections merging is associative, has the empty
selection as its identity, and changes nothing where there is nothing new.
-/

namespace FieldQuery

/-! Calls of one signature. -/

/-- The calls have the same key, name and parameters, numbers taken as equal
if they are equal or the very same. -/
def Call.Like (c d : Call) : Prop :=
  c.sameSignature d = true ∨ (c.key = d.key ∧ c.name = d.name ∧ c.params = d.params)

namespace Call

theorem Like.refl (c : Call) : c.Like c := Or.inr ⟨rfl, rfl, rfl⟩

theorem like_of_sameSignature {c d : Call} (h : c.sameSignature d = true) : c.Like d := Or.inl h

/-- A signature is all that `sameSignature` looks at. -/
theorem sameSignature_of_eq {c c' d d' : Call}
    (hc : c.key = c'.key ∧ c.name = c'.name ∧ c.params = c'.params)
    (hd : d.key = d'.key ∧ d.name = d'.name ∧ d.params = d'.params) :
    c.sameSignature d = c'.sameSignature d' := by
  simp only [sameSignature, hc, hd]

theorem Like.symm {c d : Call} (h : c.Like d) : d.Like c := by
  rcases h with h | ⟨hkey, hname, hparams⟩
  · exact Or.inl (sameSignature_symm h)
  · exact Or.inr ⟨hkey.symm, hname.symm, hparams.symm⟩

theorem Like.trans {c d e : Call} (hcd : c.Like d) (hde : d.Like e) : c.Like e := by
  rcases hcd with hcd | hcd
  · rcases hde with hde | hde
    · exact Or.inl (sameSignature_trans hcd hde)
    · exact Or.inl (by rwa [← sameSignature_of_eq ⟨rfl, rfl, rfl⟩ hde])
  · rcases hde with hde | hde
    · exact Or.inl (by rwa [sameSignature_of_eq hcd ⟨rfl, rfl, rfl⟩])
    · exact Or.inr ⟨hcd.1.trans hde.1, hcd.2.1.trans hde.2.1, hcd.2.2.trans hde.2.2⟩

theorem absorb_like (d c : Call) : (d.absorb c).Like d := by
  unfold absorb
  split
  · exact Like.refl d
  · exact Or.inr ⟨rfl, rfl, rfl⟩

end Call

namespace Selection

/-! Ways from the root. -/

/-- A way of calls, of which only the signatures matter, leads from the root to
a call with the property. -/
def Reaches (P : Call → Prop) : Selection → List Call → Prop
  | _, [] => False
  | s, c :: way => ∃ d ∈ s, d.Like c ∧ (way = [] ∧ P d ∨ Reaches P (d.nested.getD []) way)

/-- The way leads to a call. -/
def HasWay (s : Selection) (way : List Call) : Prop := s.Reaches (fun _ => True) way

/-- The way leads to a call with a group, be it an empty one. -/
def HasGroup (s : Selection) (way : List Call) : Prop :=
  s.Reaches (fun c => c.nested.isSome = true) way

section Reaches

variable {P : Call → Prop}

theorem not_reaches_nil (way : List Call) : ¬ Reaches P [] way := by
  cases way <;> simp [Reaches]

/-- Where a call that absorbs another one of its signature has a property just
if one of both has it, some call has it after an insertion just if one had it
before or the inserted call has it. -/
theorem exists_mem_withCall {a : Call}
    (hP : ∀ d, d.sameSignature a = true → (P (d.absorb a) ↔ P d ∨ P a)) (s : Selection) :
    (∃ e ∈ s.withCall a, P e) ↔ (∃ d ∈ s, P d) ∨ P a := by
  induction s with
  | nil => simp
  | cons d rest ih =>
      rw [withCall_cons]
      split
      next hda =>
        simp only [List.mem_cons, exists_eq_or_imp, hP d hda]
        exact or_right_comm
      next =>
        simp only [List.mem_cons, exists_eq_or_imp, ih]
        exact or_assoc.symm

theorem exists_mem_merge
    (hP : ∀ d a, d.sameSignature a = true → (P (d.absorb a) ↔ P d ∨ P a)) (s t : Selection) :
    (∃ e ∈ s.merge t, P e) ↔ (∃ d ∈ s, P d) ∨ ∃ a ∈ t, P a := by
  induction t generalizing s with
  | nil => simp [merge, withCalls]
  | cons a rest ih =>
      have hmore := ih (s.withCall a)
      rw [merge, withCalls]
      rw [merge, exists_mem_withCall (fun d => hP d a)] at hmore
      simp only [List.mem_cons, exists_eq_or_imp]
      rw [hmore, or_assoc]

/-- The same for calls of one signature. -/
theorem exists_like_merge (hP : ∀ d a, P (d.absorb a) ↔ P d ∨ P a) (c : Call) (s t : Selection) :
    (∃ e ∈ s.merge t, e.Like c ∧ P e) ↔
      (∃ d ∈ s, d.Like c ∧ P d) ∨ (∃ a ∈ t, a.Like c ∧ P a) := by
  refine exists_mem_merge (fun d a hda => ?_) s t
  have hlike : d.Like c ↔ a.Like c :=
    ⟨(Call.like_of_sameSignature hda).symm.trans, (Call.like_of_sameSignature hda).trans⟩
  have habsorb : (d.absorb a).Like c ↔ d.Like c :=
    ⟨(Call.absorb_like d a).symm.trans, (Call.absorb_like d a).trans⟩
  rw [habsorb, hP, ← hlike, and_or_left]

/-- A merged selection has the ways of both its sides. -/
theorem reaches_merge (hP : ∀ d a : Call, P (d.absorb a) ↔ P d ∨ P a) (way : List Call)
    (s t : Selection) : Reaches P (s.merge t) way ↔ Reaches P s way ∨ Reaches P t way := by
  induction way generalizing s t with
  | nil => simp [Reaches]
  | cons c way ih =>
      refine exists_like_merge (fun d a => ?_) c s t
      rw [hP]
      cases ha : a.nested with
      | none =>
          have hgroup : (d.absorb a).nested = d.nested := by simp [Call.absorb, ha]
          simp only [hgroup, Option.getD_none, not_reaches_nil]
          tauto
      | some calls =>
          have hgroup : (d.absorb a).nested = some (merge (d.nested.getD []) calls) := by
            simp [Call.absorb, ha]
          simp only [hgroup, Option.getD_some, ih]
          tauto

end Reaches

theorem hasWay_merge (s t : Selection) (way : List Call) :
    (s.merge t).HasWay way ↔ s.HasWay way ∨ t.HasWay way :=
  reaches_merge (fun _ _ => by simp) way s t

theorem hasGroup_merge (s t : Selection) (way : List Call) :
    (s.merge t).HasGroup way ↔ s.HasGroup way ∨ t.HasGroup way := by
  refine reaches_merge (fun d a => ?_) way s t
  cases ha : a.nested <;> simp [Call.absorb, ha]

/-! Identity and idempotence. -/

theorem withCall_fresh {s : Selection} {c : Call} (h : ∀ d ∈ s, d.sameSignature c = false) :
    s.withCall c = s ++ [c] := by
  induction s with
  | nil => simp
  | cons d rest ih =>
      obtain ⟨hd, hrest⟩ := List.forall_mem_cons.mp h
      simp [withCall_cons, hd, ih hrest]

/-- Calls whose signatures are all new are appended. -/
theorem merge_fresh {s t : Selection} (ht : WellFormed t)
    (h : ∀ c ∈ t, ∀ d ∈ s, d.sameSignature c = false) : s.merge t = s ++ t := by
  induction t generalizing s with
  | nil => simp [merge, withCalls]
  | cons c rest ih =>
      obtain ⟨hc, hrest⟩ := List.forall_mem_cons.mp h
      obtain ⟨-, hdistinct, hwell⟩ := ht
      have hmore : (s ++ [c]).merge rest = (s ++ [c]) ++ rest := by
        apply ih hwell
        intro e he d hd
        rcases List.mem_append.mp hd with hd | hd
        · exact hrest e he d hd
        · rw [List.mem_singleton.mp hd]
          exact hdistinct e he
      rw [merge] at hmore
      rw [merge, withCalls, withCall_fresh hc, hmore, List.append_assoc]
      rfl

theorem nil_merge {s : Selection} (hs : WellFormed s) : merge [] s = s :=
  merge_fresh hs (by simp)

/-- Inserting a call that is there and that itself absorbs without change. -/
theorem withCall_mem {s : Selection} {c : Call} (hs : WellFormed s) (hc : c ∈ s)
    (hsame : c.sameSignature c = true) (habsorb : c.absorb c = c) : s.withCall c = s := by
  induction s with
  | nil => cases hc
  | cons d rest ih =>
      obtain ⟨-, hdistinct, hrest⟩ := hs
      rw [withCall_cons]
      rcases List.mem_cons.mp hc with rfl | hc
      · simp [hsame, habsorb]
      · simp [hdistinct c hc, ih hrest hc]

theorem merge_subset {s calls : Selection} (hs : WellFormed s) (hcalls : ∀ c ∈ calls, c ∈ s)
    (h : ∀ c ∈ s, c.sameSignature c = true ∧ c.absorb c = c) : s.merge calls = s := by
  induction calls with
  | nil => rfl
  | cons c rest ih =>
      obtain ⟨hc, hrest⟩ := List.forall_mem_cons.mp hcalls
      obtain ⟨hsame, habsorb⟩ := h c hc
      rw [merge, withCalls, withCall_mem hs hc hsame habsorb]
      exact ih hrest

mutual

theorem absorb_self : ∀ c : Call, CallWellFormed c → NaNFree (c.nested.getD []) → c.absorb c = c
  | ⟨_, _, _, none⟩, _, _ => rfl
  | ⟨_, _, _, some calls⟩, hc, hnan => by
      have hself : merge calls calls = calls :=
        merge_subset hc (fun _ => id) fun d hd =>
          ⟨NaNFree.sameSignature_self hnan hd, absorb_self_mem calls hc hnan d hd⟩
      simp [Call.absorb, hself]

theorem absorb_self_mem : ∀ s : List Call, WellFormed s → NaNFree s → ∀ c ∈ s, c.absorb c = c
  | [], _, _ => by simp
  | d :: rest, hs, hnan => by
      have hrest : NaNFree rest := fun x hx => hnan x (by simp [hx])
      exact List.forall_mem_cons.mpr ⟨absorb_self d hs.1 (hnan.nested List.mem_cons_self),
        absorb_self_mem rest hs.2.2 hrest⟩

end

/-- A selection has nothing new for itself, unless a NaN keeps its calls from
being recognized. -/
theorem merge_self {s : Selection} (hs : WellFormed s) (hnan : s.NaNFree) : s.merge s = s :=
  merge_subset hs (fun _ => id) fun c hc =>
    ⟨hnan.sameSignature_self hc, absorb_self_mem s hs hnan c hc⟩

/-! The place of an inserted call. -/

theorem exists_like_at_insertPlace (s : Selection) (c : Call) :
    ∃ d, (s.insert c)[s.insertPlace c]? = some d ∧ d.Like c := by
  induction s with
  | nil => exact ⟨c, by simp [insert, insertPlace, place?], Call.Like.refl c⟩
  | cons d rest ih =>
      rw [insert, withCall_cons, insertPlace_cons]
      split
      next hdc =>
        exact ⟨d.absorb c, rfl, (Call.absorb_like d c).trans (Call.like_of_sameSignature hdc)⟩
      next =>
        obtain ⟨e, he, hec⟩ := ih
        exact ⟨e, by simpa [insert] using he, hec⟩

/-! Built selections. -/

mutual

/-- Selections that compiling a schema, collecting calls or inserting a call
gives. -/
inductive Built : List Call → Prop
  | compiled {schema : String} {s : List Call} : compile schema = .ok s → Built s
  | collected {calls : List Call} : (∀ c ∈ calls, BuiltCall c) → Built (ofCalls calls)
  | inserted {s : List Call} {c : Call} : Built s → BuiltCall c → Built (insert s c)

/-- Calls made from a name by giving them a label, parameters, and a group of
calls or a whole selection; and the calls of built selections. -/
inductive BuiltCall : Call → Prop
  | named (name : String) : BuiltCall (.ofName name)
  | labelled {c : Call} (label : String) : BuiltCall c → BuiltCall (c.withLabel label)
  | given {c : Call} (params : List Param) : BuiltCall c → BuiltCall (c.withParams params)
  | selecting {c : Call} {calls : List Call} : BuiltCall c → (∀ d ∈ calls, BuiltCall d) →
      BuiltCall (c.withNested calls)
  | grouped {c : Call} {s : List Call} : BuiltCall c → Built s →
      BuiltCall { c with nested := some s }
  | member {s : List Call} {c : Call} : Built s → c ∈ s → BuiltCall c

end

theorem callWellFormed_iff (c : Call) : CallWellFormed c ↔ WellFormed (c.nested.getD []) := by
  obtain ⟨name, label, params, nested⟩ := c
  cases nested with
  | none => exact Iff.rfl
  | some calls => exact Iff.rfl

theorem wellFormed_of_compile {schema : String} {s : Selection} (h : compile schema = .ok s) :
    WellFormed s := by
  obtain ⟨items, -, rfl⟩ := Schema.exists_spells_of_compile h
  rw [Schema.selectionOf, Schema.insertItems_eq_merge]
  exact ofCalls_wellFormed (Schema.callWellFormed_calls items)

mutual

theorem Built.wellFormed : ∀ {s : List Call}, Built s → WellFormed s
  | _, .compiled h => wellFormed_of_compile h
  | _, .collected h => ofCalls_wellFormed fun c hc => (h c hc).wellFormed
  | _, .inserted hs hc => insert_wellFormed hs.wellFormed hc.wellFormed

theorem BuiltCall.wellFormed : ∀ {c : Call}, BuiltCall c → CallWellFormed c
  | _, .named _ => trivial
  | _, @BuiltCall.labelled c _ h =>
      (callWellFormed_iff _).mpr ((callWellFormed_iff c).mp h.wellFormed)
  | _, @BuiltCall.given c _ h =>
      (callWellFormed_iff _).mpr ((callWellFormed_iff c).mp h.wellFormed)
  | _, .selecting _ h => ofCalls_wellFormed fun c hc => (h c hc).wellFormed
  | _, .grouped _ h => h.wellFormed
  | _, .member hs hc => WellFormed.mem hs.wellFormed _ hc

end

/-- Built selections repeat no signature at any level, and an inserted call is
found at the place that insertion tells. On selections that repeat no signature
merging is associative, the empty selection is its identity on both sides, and
without NaN a selection merged with itself stays as it is. The ways from the
root of a merged selection, and those that end in a group, are the ways of its
two sides together. -/
theorem selections_unite :
    (∀ s, Built s → WellFormed s) ∧
    (∀ (s : Selection) (c : Call), ∃ d, (s.insert c)[s.insertPlace c]? = some d ∧ d.Like c) ∧
    (∀ s t u, WellFormed s → WellFormed t → WellFormed u →
      merge (merge s t) u = merge s (merge t u)) ∧
    (∀ s, WellFormed s → merge s [] = s ∧ merge [] s = s) ∧
    (∀ s, WellFormed s → NaNFree s → merge s s = s) ∧
    (∀ s t way, (HasWay (merge s t) way ↔ HasWay s way ∨ HasWay t way) ∧
      (HasGroup (merge s t) way ↔ HasGroup s way ∨ HasGroup t way)) := by
  refine ⟨fun s hs => hs.wellFormed, exists_like_at_insertPlace, ?_, ?_, ?_, ?_⟩
  · intro s t u _ ht hu
    exact merge_assoc ht (WellFormed.mem hu) s
  · intro s hs
    exact ⟨rfl, nil_merge hs⟩
  · intro s hs hnan
    exact merge_self hs hnan
  · intro s t way
    exact ⟨hasWay_merge s t way, hasGroup_merge s t way⟩

/-- A selection with a group, parameters and a label. -/
def articles : Selection :=
  ofCalls [(Call.ofName "articles").withParams [.number (.ofNat 2), .named "page"],
    ((Call.ofName "articles").withLabel "recent").withNested [.ofName "title"]]

theorem built_articles : Built articles := by
  have harticles : BuiltCall (.ofName "articles") := .named _
  refine .collected (List.forall_mem_cons.mpr ⟨harticles.given _, ?_⟩)
  refine List.forall_mem_singleton.mpr ((harticles.labelled _).selecting ?_)
  exact List.forall_mem_singleton.mpr (.named _)

theorem naNFree_articles : NaNFree articles := by
  unfold NaNFree
  decide +kernel

theorem articles_united :
    (WellFormed articles ∧ NaNFree articles) ∧ merge articles articles = articles ∧
      merge (merge articles []) articles = articles ∧
      HasGroup (merge [] articles) [(Call.ofName "articles").withLabel "recent"] := by
  obtain ⟨hbuilt, -, hassoc, hidentity, hself, hways⟩ := selections_unite
  have hwell : WellFormed articles := hbuilt articles built_articles
  have hsame : merge articles articles = articles := hself articles hwell naNFree_articles
  refine ⟨⟨hwell, naNFree_articles⟩, hsame, ?_, ?_⟩
  · rw [hassoc articles [] articles hwell trivial hwell, (hidentity articles hwell).2, hsame]
  · refine (hways [] articles _).2.mpr (Or.inr ?_)
    have hcalls : articles =
        [(Call.ofName "articles").withParams [.number (.ofNat 2), .named "page"],
          ((Call.ofName "articles").withLabel "recent").withNested [.ofName "title"]] := by
      with_unfolding_all rfl
    rw [hcalls]
    exact ⟨_, List.mem_cons_of_mem _ List.mem_cons_self, Or.inr ⟨rfl, rfl, rfl⟩, Or.inl ⟨rfl, rfl⟩⟩

/-- A call with NaN is not recognized as one that is there already. -/
def unmeasured : Selection := [(Call.ofName "near").withParams [.number .nan]]

theorem unmeasured_merged_twice :
    WellFormed unmeasured ∧ merge unmeasured unmeasured ≠ unmeasured := by
  refine ⟨⟨trivial, by simp, trivial⟩, ?_⟩
  intro hself
  have hnew : ∀ d ∈ unmeasured, d.sameSignature ((Call.ofName "near").withParams [.number .nan]) =
      false := by
    decide +kernel
  have htwice : merge unmeasured unmeasured = unmeasured ++ unmeasured := withCall_fresh hnew
  rw [hself] at htwice
  simp [unmeasured] at htwice

end Selection

end FieldQuery
