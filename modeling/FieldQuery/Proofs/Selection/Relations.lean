import FieldQuery.Proofs.Selection.Union
import FieldQuery.Selection.Hints

/-!
Relations that a selection reads. The paths of its eager-load hints are the
names along its chains of relations, no level of the hints names a relation
twice, and merging two selections unites their paths.
-/

namespace FieldQuery

/-! Merged hints. -/

/-- The hint with what lies under another one merged into it. -/
def Hint.absorb (e h : Hint) : Hint := { e with nested := Hints.withHints e.nested h.nested }

namespace Hints

/-- A path of names leads down into the hints. -/
def HasPath : Hints → List String → Prop
  | _, [] => False
  | hints, name :: path => ∃ h ∈ hints, h.name = name ∧ (path = [] ∨ HasPath h.nested path)

/-- No level names a relation twice. -/
inductive Distinct : Hints → Prop
  | intro {hints : Hints} (hnames : (names hints).Nodup)
      (hnested : ∀ h ∈ hints, Distinct h.nested) : Distinct hints

theorem Distinct.nil : Distinct [] := .intro .nil (by simp)

theorem withHint_nil (h : Hint) : withHint [] h = [h] := by
  obtain ⟨name, nested⟩ := h
  rw [withHint]
  rfl

/-- Adding a relation along one level. -/
theorem withHint_cons (e : Hint) (hints : Hints) (h : Hint) :
    withHint (e :: hints) h = if e.name = h.name then e.absorb h :: hints
      else e :: hints.withHint h := by
  obtain ⟨name, nested⟩ := h
  rw [withHint, withHint, List.findIdx?_cons]
  by_cases hname : e.name = name
  · simp [hname, Hint.absorb]
  · simp only [hname, beq_iff_eq, if_false]
    cases List.findIdx? (·.name == name) hints <;> rfl

theorem names_withHint (hints : Hints) (h : Hint) :
    names (hints.withHint h) =
      if h.name ∈ names hints then names hints else names hints ++ [h.name] := by
  induction hints with
  | nil => rw [withHint_nil]; rfl
  | cons e rest ih =>
      rw [withHint_cons]
      by_cases hname : e.name = h.name
      · simp [names, Hint.absorb, hname]
      · have hmem : h.name ∈ names (e :: rest) ↔ h.name ∈ names rest := by
          simp [names, Ne.symm hname]
        have hcons (hints : Hints) : names (e :: hints) = e.name :: names hints := rfl
        rw [if_neg hname, hcons, ih]
        by_cases hrest : h.name ∈ names rest
        · rw [if_pos hrest, if_pos (hmem.mpr hrest), hcons]
        · rw [if_neg hrest, if_neg (mt hmem.mp hrest), hcons, List.cons_append]

theorem hasPath_cons (h : Hint) (hints : Hints) (path : List String) :
    HasPath (h :: hints) path ↔ HasPath [h] path ∨ HasPath hints path := by
  cases path with
  | nil => simp [HasPath]
  | cons name path => simp [HasPath]

theorem not_hasPath_nil (path : List String) : ¬ HasPath [] path := by
  cases path <;> simp [HasPath]

/-- What holds of adding one relation holds of adding several. -/
theorem hasPath_withHints_of {path : List String}
    (h : ∀ hints e, HasPath (withHint hints e) path ↔ HasPath hints path ∨ HasPath [e] path)
    (hints more : Hints) :
    HasPath (withHints hints more) path ↔ HasPath hints path ∨ HasPath more path := by
  induction more generalizing hints with
  | nil => simp [withHints, not_hasPath_nil]
  | cons e rest ih => rw [withHints, ih, h, hasPath_cons e rest, or_assoc]

/-- Hints have the paths that were there and those of an added relation. The
induction is on the path, since below an absorbing hint it is a shorter one. -/
theorem hasPath_withHint (hints : Hints) (h : Hint) (path : List String) :
    HasPath (hints.withHint h) path ↔ HasPath hints path ∨ HasPath [h] path := by
  induction path generalizing hints h with
  | nil => simp [HasPath]
  | cons name path ih =>
      induction hints with
      | nil => simp [withHint_nil, not_hasPath_nil]
      | cons e rest ihrest =>
          rw [withHint_cons]
          split
          next hname =>
            have hbelow := hasPath_withHints_of ih e.nested h.nested
            rw [hasPath_cons, hasPath_cons e rest]
            simp only [HasPath, List.mem_singleton, exists_eq_left, Hint.absorb, hbelow, ← hname]
            rw [or_or_distrib_left, and_or_left, or_right_comm]
          next => rw [hasPath_cons, ihrest, hasPath_cons e rest, or_assoc]

mutual

theorem Distinct.withHint : ∀ {hints : Hints} (h : Hint), Distinct hints → Distinct h.nested →
    Distinct (hints.withHint h)
  | hints, ⟨name, nested⟩, .intro hnames hnested, hbelow => by
      refine .intro ?_ ?_
      · rw [names_withHint]
        split
        next => exact hnames
        next hnew => exact List.nodup_append.mpr ⟨hnames, by simp, by
            rintro other hother _ hname rfl
            exact hnew (List.mem_singleton.mp hname ▸ hother)⟩
      · clear hnames
        induction hints with
        | nil =>
            rw [withHint_nil]
            simpa using hbelow
        | cons e rest ih =>
            obtain ⟨he, hrest⟩ := List.forall_mem_cons.mp hnested
            rw [withHint_cons]
            split
            next =>
              refine List.forall_mem_cons.mpr ⟨?_, hrest⟩
              exact he.withHints nested hbelow
            next => exact List.forall_mem_cons.mpr ⟨he, ih hrest⟩

theorem Distinct.withHints : ∀ {hints : Hints} (more : List Hint), Distinct hints →
    Distinct more → Distinct (hints.withHints more)
  | _, [], hhints, _ => hhints
  | _, h :: rest, hhints, .intro hnames hnested => by
      obtain ⟨hfirst, hrest⟩ := List.forall_mem_cons.mp hnested
      have hwith := hhints.withHint h hfirst
      exact hwith.withHints rest (.intro (List.nodup_cons.mp hnames).2 hrest)

end

end Hints

/-! Chains of relations. -/

/-- The call stands for a relation: it has a group, was written without
parentheses, and its name has no dot. -/
def Call.IsRelation (c : Call) : Prop :=
  c.nested.isSome = true ∧ c.params = none ∧ c.isDotted = false

instance (c : Call) : Decidable c.IsRelation := inferInstanceAs (Decidable (_ ∧ _ ∧ _))

namespace Selection

/-- Calls for relations, the first one of the selection and each other one of
the group of the call before. -/
def Chain : Selection → List Call → Prop
  | _, [] => False
  | s, c :: chain => c ∈ s ∧ c.IsRelation ∧ (chain = [] ∨ Chain (c.nested.getD []) chain)

/-- A chain of relations has these names. -/
def HasChain (s : Selection) (path : List String) : Prop :=
  ∃ chain, s.Chain chain ∧ chain.map Call.name = path

theorem not_hasChain_nil (s : Selection) : ¬ s.HasChain [] := by
  rintro ⟨chain, hchain, hnames⟩
  obtain rfl := List.map_eq_nil_iff.mp hnames
  exact hchain

theorem not_hasChain_of_nil (path : List String) : ¬ HasChain [] path := by
  rintro ⟨_ | ⟨c, chain⟩, hchain, -⟩
  · exact hchain
  · exact absurd hchain.1 List.not_mem_nil

theorem hasChain_cons (s : Selection) (name : String) (path : List String) :
    s.HasChain (name :: path) ↔ ∃ c ∈ s, c.IsRelation ∧ c.name = name ∧
      (path = [] ∨ HasChain (c.nested.getD []) path) := by
  constructor
  · rintro ⟨chain, hchain, hnames⟩
    obtain ⟨c, rest, rfl, rfl, rfl⟩ := List.map_eq_cons_iff.mp hnames
    obtain ⟨hc, hrelation, hrest⟩ := hchain
    refine ⟨c, hc, hrelation, rfl, ?_⟩
    rcases hrest with rfl | hrest
    · exact .inl rfl
    · exact .inr ⟨rest, hrest, rfl⟩
  · rintro ⟨c, hc, hrelation, rfl, rfl | ⟨chain, hchain, rfl⟩⟩
    · exact ⟨[c], ⟨hc, hrelation, .inl rfl⟩, rfl⟩
    · exact ⟨c :: chain, ⟨hc, hrelation, .inr hchain⟩, rfl⟩

theorem callHints_eq (hints : Hints) (c : Call) :
    callHints hints c =
      if c.IsRelation then hints.withHint ⟨c.name, Selection.hints (c.nested.getD [])⟩
      else hints := by
  obtain ⟨name, label, params, _ | calls⟩ := c
  · simp [callHints, Call.IsRelation]
  · cases params with
    | none =>
        rw [callHints]
        split <;> simp_all [Call.IsRelation, Call.isParameterized, Selection.hints]
    | some params => simp [callHints, Call.IsRelation, Call.isParameterized]

/-- The induction is on the path: under a relation it goes on in the hints of
the group, which are hints of a selection again. -/
theorem hasPath_hintsFrom (path : List String) (hints : Hints) (s : Selection) :
    (hintsFrom hints s).HasPath path ↔ hints.HasPath path ∨ s.HasChain path := by
  induction path generalizing hints s with
  | nil => simp [Hints.HasPath, not_hasChain_nil]
  | cons name path ih =>
      induction s generalizing hints with
      | nil => simp [hintsFrom, hasChain_cons]
      | cons c rest ihrest =>
          have hgroup : (Selection.hints (c.nested.getD [])).HasPath path ↔
              HasChain (c.nested.getD []) path := by
            rw [Selection.hints, ih]
            simp [Hints.not_hasPath_nil]
          rw [hintsFrom, ihrest, callHints_eq, hasChain_cons, hasChain_cons]
          simp only [List.mem_cons, exists_eq_or_imp]
          split
          next hrelation =>
            rw [Hints.hasPath_withHint]
            simp only [Hints.HasPath, List.mem_singleton, exists_eq_left, hgroup, hrelation,
              true_and, or_assoc]
          next hother => simp [hother]

theorem hasPath_hints (s : Selection) (path : List String) :
    s.hints.HasPath path ↔ s.HasChain path := by
  rw [Selection.hints, hasPath_hintsFrom]
  simp [Hints.not_hasPath_nil]

mutual

theorem distinct_callHints : ∀ {hints : Hints} (c : Call), hints.Distinct →
    (callHints hints c).Distinct
  | _, ⟨_, _, _, none⟩, h => h
  | hints, ⟨name, label, params, some calls⟩, h => by
      rw [callHints_eq]
      split
      next => exact h.withHint _ (distinct_hintsFrom calls .nil)
      next => exact h

theorem distinct_hintsFrom : ∀ {hints : Hints} (calls : List Call), hints.Distinct →
    (hintsFrom hints calls).Distinct
  | _, [], h => h
  | _, c :: rest, h => distinct_hintsFrom rest (distinct_callHints c h)

end

/-! Chains of merged selections. -/

theorem params_eq_none_iff {c d : Call} (h : d.sameSignature c = true) :
    d.params = none ↔ c.params = none := by
  simp only [Call.sameSignature, Bool.and_eq_true] at h
  cases hd : d.params <;> cases hc : c.params <;>
    simp_all [Call.sameOptionalParams]

theorem hasChain_merge (path : List String) (s t : Selection) :
    (s.merge t).HasChain path ↔ s.HasChain path ∨ t.HasChain path := by
  induction path generalizing s t with
  | nil => simp [not_hasChain_nil]
  | cons name path ih =>
      simp only [hasChain_cons]
      refine exists_mem_merge (fun d a hda => ?_) s t
      have hparams := params_eq_none_iff hda
      have hname : d.name = a.name := by
        simp only [Call.sameSignature, Bool.and_eq_true, beq_iff_eq] at hda
        exact hda.1.2
      have hdotted : d.isDotted = a.isDotted := by rw [Call.isDotted, Call.isDotted, hname]
      cases ha : a.nested with
      | none =>
          have habsorb : d.absorb a = d := by simp [Call.absorb, ha]
          simp [habsorb, Call.IsRelation, ha]
      | some calls =>
          have habsorb : (d.absorb a).nested = some (merge (d.nested.getD []) calls) ∧
              (d.absorb a).params = d.params ∧ (d.absorb a).name = d.name := by
            simp [Call.absorb, ha]
          have hdotted' : (d.absorb a).isDotted = a.isDotted := by
            rw [Call.isDotted, Call.isDotted, habsorb.2.2, hname]
          simp only [Call.IsRelation, habsorb, hdotted, hdotted', hname, hparams, ha, ih,
            Option.isSome_some, Option.getD_some, true_and]
          cases hd : d.nested with
          | none => simp [not_hasChain_of_nil]
          | some inner =>
              simp only [Option.isSome_some, Option.getD_some, true_and]
              rw [or_or_distrib_left, and_or_left, and_or_left]

/-- The paths of the hints of a selection are the names along its chains of
relations, whatever their labels. No level of the hints has a name twice, and
the hints of a merged selection have the paths of both its sides. -/
theorem hints_name_relations :
    (∀ (s : Selection) path, s.hints.HasPath path ↔
      ∃ chain, s.Chain chain ∧ chain.map Call.name = path) ∧
    (∀ s : Selection, s.hints.Distinct) ∧
    ∀ (s t : Selection) path,
      (s.merge t).hints.HasPath path ↔ s.hints.HasPath path ∨ t.hints.HasPath path := by
  refine ⟨hasPath_hints, fun s => distinct_hintsFrom s .nil, ?_⟩
  intro s t path
  simp only [hasPath_hints, hasChain_merge]

end Selection

end FieldQuery
