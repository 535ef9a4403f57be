import FieldQuery.Api

/-!
Two runs side by side. Results agree if both are values that correspond, or
both are the same failure; a first run that ends in an excused failure says
nothing about the second.
-/

namespace FieldQuery

variable {ε ζ α β γ δ σ τ : Type}

/-! Options that correspond. -/

theorem rel_cases {rel : α → β → Prop} {x : Option α} {y : Option β} (h : Option.Rel rel x y) :
    (x = none ∧ y = none) ∨ ∃ a b, x = some a ∧ y = some b ∧ rel a b := by
  cases h with
  | none => exact .inl ⟨rfl, rfl⟩
  | some h => exact .inr ⟨_, _, rfl, rfl, h⟩

theorem rel_refl {rel : α → α → Prop} (hrel : ∀ a, rel a a) (x : Option α) :
    Option.Rel rel x x := by
  cases x with
  | none => exact .none
  | some a => exact .some (hrel a)

theorem findSome?_rel {ι : Type} {rel : α → β → Prop} {f : ι → Option α} {g : ι → Option β}
    (h : ∀ i, Option.Rel rel (f i) (g i)) (items : List ι) :
    Option.Rel rel (items.findSome? f) (items.findSome? g) := by
  induction items with
  | nil => exact .none
  | cons i items ih =>
      rw [List.findSome?_cons, List.findSome?_cons]
      rcases rel_cases (h i) with ⟨hf, hg⟩ | ⟨a, b, hf, hg, hab⟩
      · rw [hf, hg]
        exact ih
      · rw [hf, hg]
        exact .some hab

/-! Results that agree. -/

inductive Agree (excused : ε → Prop) (rel : α → β → Prop) : Except ε α → Except ε β → Prop
  | ok {a : α} {b : β} (h : rel a b) : Agree excused rel (.ok a) (.ok b)
  | error (e : ε) : Agree excused rel (.error e) (.error e)
  | excuse {e : ε} (h : excused e) (result : Except ε β) : Agree excused rel (.error e) result

namespace Agree

variable {excused : ε → Prop} {rel : α → β → Prop}

theorem refl {rel : α → α → Prop} (hrel : ∀ a, rel a a) (x : Except ε α) :
    Agree excused rel x x := by
  cases x with
  | error e => exact .error e
  | ok a => exact .ok (hrel a)

theorem of_eq {x y : Except ε α} (h : x = y) : Agree excused Eq x y := by
  rw [h]
  exact refl (fun _ => rfl) y

/-- Without excuses, results that agree up to equality are equal. -/
theorem eq {x y : Except ε α} (h : Agree (fun _ => False) Eq x y) : x = y := by
  cases h with
  | ok h => rw [h]
  | error e => rfl
  | excuse h _ => exact h.elim

theorem bind {rel' : γ → δ → Prop} {x : Except ε α} {y : Except ε β} {f : α → Except ε γ}
    {g : β → Except ε δ} (h : Agree excused rel x y)
    (hrest : ∀ a b, x = .ok a → rel a b → Agree excused rel' (f a) (g b)) :
    Agree excused rel' (x.bind f) (y.bind g) := by
  cases h with
  | ok h => exact hrest _ _ rfl h
  | error e => exact .error e
  | excuse h y => exact .excuse h _

theorem map {rel' : γ → δ → Prop} {x : Except ε α} {y : Except ε β} {f : α → γ} {g : β → δ}
    (h : Agree excused rel x y) (hmap : ∀ a b, rel a b → rel' (f a) (g b)) :
    Agree excused rel' (x.map f) (y.map g) := by
  cases h with
  | ok h => exact .ok (hmap _ _ h)
  | error e => exact .error e
  | excuse h y => exact .excuse h _

/-- Failures of both results are renamed alike. -/
theorem mapError {excused' : ζ → Prop} {x : Except ε α} {y : Except ε β} {f : ε → ζ}
    (hf : ∀ e, excused e → excused' (f e)) (h : Agree excused rel x y) :
    Agree excused' rel (x.mapError f) (y.mapError f) := by
  cases h with
  | ok h => exact .ok h
  | error e => exact .error (f e)
  | excuse h y => exact .excuse (hf _ h) _

end Agree

/-- Result and final state of two computations that agree. -/
inductive AgreeIn (excused : ε → Prop) (rel : α → β → Prop) (states : σ → τ → Prop) :
    Except ε α × σ → Except ε β × τ → Prop
  | ok {a : α} {b : β} {s : σ} {t : τ} (h : rel a b) (hstates : states s t) :
      AgreeIn excused rel states (.ok a, s) (.ok b, t)
  | error (e : ε) {s : σ} {t : τ} (hstates : states s t) :
      AgreeIn excused rel states (.error e, s) (.error e, t)
  | excuse {e : ε} (h : excused e) (s : σ) (result : Except ε β × τ) :
      AgreeIn excused rel states (.error e, s) result

namespace AgreeIn

variable {excused : ε → Prop} {rel : α → β → Prop} {states : σ → τ → Prop}

theorem fst {x : Except ε α × σ} {y : Except ε β × τ} (h : AgreeIn excused rel states x y) :
    Agree excused rel x.1 y.1 := by
  cases h with
  | ok h _ => exact .ok h
  | error e _ => exact .error e
  | excuse h _ y => exact .excuse h y.1

theorem of_agree {x : Except ε α} {y : Except ε β} (h : Agree excused rel x y) {s : σ} {t : τ}
    (hstates : states s t) : AgreeIn excused rel states (x, s) (y, t) := by
  cases h with
  | ok h => exact .ok h hstates
  | error e => exact .error e hstates
  | excuse h y => exact .excuse h s (y, t)

/-- The rest has to agree only from where the first run comes to it. -/
theorem bind {rel' : γ → δ → Prop} {x : ExceptT ε (StateM σ) α} {y : ExceptT ε (StateM τ) β}
    {f : α → ExceptT ε (StateM σ) γ} {g : β → ExceptT ε (StateM τ) δ} {s : σ} {t : τ}
    (h : AgreeIn excused rel states (x.run.run s) (y.run.run t))
    (hrest : ∀ a b s' t', x.run.run s = (.ok a, s') → rel a b → states s' t' →
      AgreeIn excused rel' states ((f a).run.run s') ((g b).run.run t')) :
    AgreeIn excused rel' states ((x >>= f).run.run s) ((y >>= g).run.run t) := by
  simp only [ExceptT.run_bind, StateT.run_bind]
  generalize x.run.run s = first at h hrest ⊢
  generalize y.run.run t = second at h ⊢
  cases h with
  | ok h hstates => exact hrest _ _ _ _ rfl h hstates
  | error e hstates => exact .error e hstates
  | excuse h s second => exact .excuse h s _

/-- Changes the result of a computation afterwards. An excused failure has to
stay one, since it says nothing about the state of the second run. -/
theorem map_result {excused' : ζ → Prop} {rel' : γ → δ → Prop} {x : ExceptT ε (StateM σ) α}
    {y : ExceptT ε (StateM τ) β} {f : Except ε α → Except ζ γ} {g : Except ε β → Except ζ δ}
    {s : σ} {t : τ} (h : AgreeIn excused rel states (x.run.run s) (y.run.run t))
    (hok : ∀ a b, rel a b → Agree excused' rel' (f (.ok a)) (g (.ok b)))
    (herror : ∀ e, Agree excused' rel' (f (.error e)) (g (.error e)))
    (hexcuse : ∀ e, excused e → ∃ e', excused' e' ∧ f (.error e) = .error e') :
    AgreeIn excused' rel' states
      ((ExceptT.mk (x.run >>= fun result => pure (f result)) : ExceptT ζ (StateM σ) γ).run.run s)
      ((ExceptT.mk (y.run >>= fun result => pure (g result)) : ExceptT ζ (StateM τ) δ).run.run t) := by
  simp only [ExceptT.run_mk, StateT.run_bind, StateT.run_pure]
  generalize x.run.run s = first at h ⊢
  generalize y.run.run t = second at h ⊢
  cases h with
  | ok h hstates => exact of_agree (hok _ _ h) hstates
  | error e hstates => exact of_agree (herror e) hstates
  | @excuse e h s second =>
      obtain ⟨e', he', hf⟩ := hexcuse e h
      change AgreeIn excused' rel' states (f (.error e), s) _
      rw [hf]
      exact .excuse he' s _

end AgreeIn

/-- Computations that agree whenever they start from states that correspond. -/
def RunsAgree (excused : ε → Prop) (rel : α → β → Prop) (states : σ → τ → Prop)
    (x : ExceptT ε (StateM σ) α) (y : ExceptT ε (StateM τ) β) : Prop :=
  ∀ s t, states s t → AgreeIn excused rel states (x.run.run s) (y.run.run t)

namespace RunsAgree

variable {excused : ε → Prop} {rel : α → β → Prop} {states : σ → τ → Prop}

theorem pure {a : α} {b : β} (h : rel a b) :
    RunsAgree excused rel states (Pure.pure a) (Pure.pure b) :=
  fun _ _ hstates => .ok h hstates

theorem of_agree {x : Except ε α} {y : Except ε β} (h : Agree excused rel x y) :
    RunsAgree excused rel states (ExceptT.mk (Pure.pure x)) (ExceptT.mk (Pure.pure y)) :=
  fun _ _ hstates => AgreeIn.of_agree h hstates

/-- The same computation agrees with itself. -/
theorem refl {rel : α → α → Prop} (hrel : ∀ a, rel a a) (x : ExceptT ε (StateM σ) α) :
    RunsAgree excused rel Eq x x := by
  rintro s _ rfl
  cases hx : x.run.run s with
  | mk result s =>
      cases result with
      | error e => exact .error e rfl
      | ok a => exact .ok (hrel a) rfl

theorem bind {rel' : γ → δ → Prop} {x : ExceptT ε (StateM σ) α} {y : ExceptT ε (StateM τ) β}
    {f : α → ExceptT ε (StateM σ) γ} {g : β → ExceptT ε (StateM τ) δ}
    (h : RunsAgree excused rel states x y)
    (hrest : ∀ a b, rel a b → RunsAgree excused rel' states (f a) (g b)) :
    RunsAgree excused rel' states (x >>= f) (y >>= g) :=
  fun s t hstates => (h s t hstates).bind fun a b s' t' _ hab => hrest a b hab s' t'

theorem map_result {excused' : ζ → Prop} {rel' : γ → δ → Prop} {x : ExceptT ε (StateM σ) α}
    {y : ExceptT ε (StateM τ) β} {f : Except ε α → Except ζ γ} {g : Except ε β → Except ζ δ}
    (h : RunsAgree excused rel states x y)
    (hok : ∀ a b, rel a b → Agree excused' rel' (f (.ok a)) (g (.ok b)))
    (herror : ∀ e, Agree excused' rel' (f (.error e)) (g (.error e)))
    (hexcuse : ∀ e, excused e → ∃ e', excused' e' ∧ f (.error e) = .error e') :
    RunsAgree excused' rel' states (ExceptT.mk (x.run >>= fun result => Pure.pure (f result)))
      (ExceptT.mk (y.run >>= fun result => Pure.pure (g result))) :=
  fun s t hstates => (h s t hstates).map_result hok herror hexcuse

end RunsAgree

end FieldQuery
