import Mathlib.Data.List.Induction
import FieldQuery.Entity.Descriptor
import FieldQuery.Proofs.Fields

/-!
Building descriptors. Resolvers and hooks of the descriptor's own replace what
is there, while plain attributes and parents only offer what is missing. So a
descriptor is decided by the last step of the first sort and, without one, by
the first step of the second.
-/

namespace FieldQuery

inductive ParamsSlot where
  | create
  | update
  | either
deriving DecidableEq

/-- One step of building a descriptor. -/
inductive BuilderStep (Obj Parent : Type) where
  | attributes (names : List String)
  | resolve (name : String) (resolver : Resolver Obj)
  | extending (parent : Parent)
  | mapParams (slot : ParamsSlot) (hook : ParamsHook Obj)

variable {Obj : Type}

namespace Descriptor

def hook? (d : Descriptor Obj) : ParamsSlot → Option (ParamsHook Obj)
  | .create => d.createParams
  | .update => d.updateParams
  | .either => d.params

def withHook (d : Descriptor Obj) (hook : ParamsHook Obj) : ParamsSlot → Descriptor Obj
  | .create => d.withCreateParams hook
  | .update => d.withUpdateParams hook
  | .either => d.withParams hook

def take (d : Descriptor Obj) : BuilderStep Obj (Descriptor Obj) → Descriptor Obj
  | .attributes names => d.withAttributes names
  | .resolve name resolver => d.withResolver name resolver
  | .extending parent => d.extending parent
  | .mapParams slot hook => d.withHook hook slot

end Descriptor

namespace BuilderStep

/-- The resolver that a step puts under a name. -/
def resolver? {Parent : Type} (name : String) : BuilderStep Obj Parent → Option (Resolver Obj)
  | .resolve other resolver => if other = name then some resolver else none
  | _ => none

/-- The entry that a step has for a name without one. -/
def offered? (name : String) : BuilderStep Obj (Descriptor Obj) → Option (Option (Resolver Obj))
  | .attributes names => if name ∈ names then some none else none
  | .extending parent => parent.attribute? name
  | _ => none

theorem eq_resolve_of_isSome {Parent : Type} {name : String} {step : BuilderStep Obj Parent}
    (h : (step.resolver? name).isSome = true) : ∃ resolver, step = .resolve name resolver := by
  cases step with
  | resolve other resolver =>
      have hname : other = name := by simpa [resolver?] using h
      exact ⟨resolver, hname ▸ rfl⟩
  | _ => cases h

/-- The hook that a step puts into a slot. -/
def hook? {Parent : Type} (slot : ParamsSlot) : BuilderStep Obj Parent → Option (ParamsHook Obj)
  | .mapParams other hook => if other = slot then some hook else none
  | _ => none

/-- The hook that a step has for an empty slot. -/
def inherited? (slot : ParamsSlot) : BuilderStep Obj (Descriptor Obj) → Option (ParamsHook Obj)
  | .extending parent => parent.hook? slot
  | _ => none

/-- No parent of the steps repeats a name. -/
def ParentsDistinct (steps : List (BuilderStep Obj (Descriptor Obj))) : Prop :=
  ∀ parent, .extending parent ∈ steps → parent.attributeNames.Nodup

end BuilderStep

namespace Descriptor

open BuilderStep

variable {d parent : Descriptor Obj} {name : String}

theorem attribute?_withAttribute (d : Descriptor Obj) (other name : String) :
    (d.withAttribute other).attribute? name =
      (d.attribute? name).or (if name = other then some none else none) := by
  unfold withAttribute
  split
  next hhas =>
    by_cases hname : name = other
    · obtain ⟨entry, hentry⟩ := Option.isSome_iff_exists.mp hhas
      rw [hname, attribute?, hentry, Option.some_or]
    · rw [if_neg hname, Option.or_none]
  next hmissing =>
    have hnone : Fields.get? d.attributes other = none :=
      Option.not_isSome_iff_eq_none.mp hmissing
    rw [attribute?, attribute?, Fields.get?_put]
    by_cases hname : name = other
    · rw [hname, if_pos rfl, hnone, if_pos rfl, Option.none_or]
    · rw [if_neg (Ne.symm hname), if_neg hname, Option.or_none]

theorem attribute?_withAttributes (d : Descriptor Obj) (names : List String) (name : String) :
    (d.withAttributes names).attribute? name =
      (d.attribute? name).or (if name ∈ names then some none else none) := by
  induction names generalizing d with
  | nil => exact Option.or_none.symm
  | cons other rest ih =>
      change ((d.withAttribute other).withAttributes rest).attribute? name = _
      rw [ih, attribute?_withAttribute, Option.or_assoc]
      by_cases hname : name = other <;> simp [hname]

theorem attribute?_withResolver (d : Descriptor Obj) (other : String) (resolver : Resolver Obj)
    (name : String) : (d.withResolver other resolver).attribute? name =
      (if other = name then some (some resolver) else none).or (d.attribute? name) := by
  rw [attribute?, withResolver, Fields.get?_put]
  by_cases hname : other = name
  · simp [hname]
  · simp [hname, attribute?]

theorem attribute?_extending (hd : d.attributeNames.Nodup) (parent : Descriptor Obj)
    (name : String) :
    (d.extending parent).attribute? name = (d.attribute? name).or (parent.attribute? name) := by
  rw [attribute?, extending, attribute?]
  cases hentry : Fields.get? d.attributes name with
  | none => exact Fields.get?_extend_of_none hentry
  | some entry => exact Fields.get?_extend hd hentry

/-- What a step does to the entry of one name. -/
theorem attribute?_take (hd : d.attributeNames.Nodup) (step : BuilderStep Obj (Descriptor Obj))
    (name : String) : (d.take step).attribute? name =
      ((step.resolver? name).map some).or ((d.attribute? name).or (step.offered? name)) := by
  cases step with
  | attributes names => exact attribute?_withAttributes d names name
  | resolve other resolver =>
      simp only [take, attribute?_withResolver, resolver?, offered?, Option.or_none]
      split <;> rfl
  | extending parent => exact attribute?_extending hd parent name
  | mapParams slot hook => cases slot <;> exact Option.or_none.symm

theorem hook?_withHook (d : Descriptor Obj) (hook : ParamsHook Obj) (other slot : ParamsSlot) :
    (d.withHook hook other).hook? slot =
      (if other = slot then some hook else none).or (d.hook? slot) := by
  cases other <;> cases slot <;> rfl

theorem hook?_withAttributes (d : Descriptor Obj) (names : List String) (slot : ParamsSlot) :
    (d.withAttributes names).hook? slot = d.hook? slot := by
  induction names generalizing d with
  | nil => rfl
  | cons name rest ih =>
      change ((d.withAttribute name).withAttributes rest).hook? slot = _
      rw [ih, withAttribute]
      split
      next => rfl
      next => cases slot <;> rfl

/-- What a step does to one slot. -/
theorem hook?_take (d : Descriptor Obj) (step : BuilderStep Obj (Descriptor Obj))
    (slot : ParamsSlot) : (d.take step).hook? slot =
      (step.hook? slot).or ((d.hook? slot).or (step.inherited? slot)) := by
  cases step with
  | attributes names => exact (hook?_withAttributes d names slot).trans Option.or_none.symm
  | resolve name resolver => cases slot <;> exact Option.or_none.symm
  | extending parent => cases slot <;> rfl
  | mapParams other hook =>
      simp only [take, hook?_withHook, BuilderStep.hook?, inherited?, Option.or_none]

theorem nodup_withAttributes (hd : d.attributeNames.Nodup) (names : List String) :
    (d.withAttributes names).attributeNames.Nodup := by
  induction names generalizing d with
  | nil => exact hd
  | cons name rest ih =>
      refine ih (d := d.withAttribute name) ?_
      unfold withAttribute
      split
      next => exact hd
      next => exact Fields.nodup_put hd _ _

theorem nodup_take (hd : d.attributeNames.Nodup) {step : BuilderStep Obj (Descriptor Obj)}
    (hparent : ∀ parent, step = .extending parent → parent.attributeNames.Nodup) :
    (d.take step).attributeNames.Nodup := by
  cases step with
  | attributes names => exact nodup_withAttributes hd names
  | resolve name resolver => exact Fields.nodup_put hd _ _
  | extending parent => exact Fields.nodup_extend (hparent parent rfl) _
  | mapParams slot hook => cases slot <;> exact hd

/-- The descriptor that steps make of a fresh one. -/
def build (typeName : String) (steps : List (BuilderStep Obj (Descriptor Obj))) : Descriptor Obj :=
  steps.foldl take (ofType typeName)

variable {typeName : String} {steps : List (BuilderStep Obj (Descriptor Obj))}

theorem build_concat (typeName : String) (steps : List (BuilderStep Obj (Descriptor Obj)))
    (step : BuilderStep Obj (Descriptor Obj)) :
    build typeName (steps ++ [step]) = (build typeName steps).take step :=
  List.foldl_append

theorem nodup_build (hsteps : ParentsDistinct steps) :
    (build typeName steps).attributeNames.Nodup := by
  induction steps using List.reverseRecOn with
  | nil => exact List.nodup_nil
  | append_singleton steps step ih =>
      rw [build_concat]
      refine nodup_take (ih fun parent hparent => hsteps parent (by simp [hparent])) ?_
      exact fun parent hparent => hsteps parent (by simp [hparent])

/-- What a step replaces with its own value, or offers where there is none, is
after all steps the last own value, or else the first one offered. -/
theorem build_eq_last_or_first {α : Type} (read : Descriptor Obj → Option α)
    (own offered : BuilderStep Obj (Descriptor Obj) → Option α)
    (hstart : read (ofType typeName) = none)
    (hstep : ∀ d : Descriptor Obj, d.attributeNames.Nodup → ∀ step,
      read (d.take step) = (own step).or ((read d).or (offered step)))
    (hsteps : ParentsDistinct steps) :
    read (build typeName steps) = (steps.reverse.findSome? own).or (steps.findSome? offered) := by
  induction steps using List.reverseRecOn with
  | nil => exact hstart
  | append_singleton steps step ih =>
      have hbefore : ParentsDistinct steps := fun parent hparent =>
        hsteps parent (List.mem_append_left _ hparent)
      rw [build_concat, hstep _ (nodup_build hbefore), ih hbefore, List.reverse_append,
        List.reverse_singleton, List.findSome?_append, List.findSome?_append,
        List.findSome?_singleton, List.findSome?_singleton, Option.or_assoc, Option.or_assoc]

theorem attribute?_build (hsteps : ParentsDistinct steps) (name : String) :
    (build typeName steps).attribute? name =
      (steps.reverse.findSome? fun step => (step.resolver? name).map some).or
        (steps.findSome? (·.offered? name)) :=
  build_eq_last_or_first (·.attribute? name) (fun step => (step.resolver? name).map some)
    (·.offered? name) rfl (fun _ hd step => attribute?_take hd step name) hsteps

theorem hook?_build (hsteps : ParentsDistinct steps) (slot : ParamsSlot) :
    (build typeName steps).hook? slot =
      (steps.reverse.findSome? (·.hook? slot)).or (steps.findSome? (·.inherited? slot)) :=
  build_eq_last_or_first (·.hook? slot) (·.hook? slot) (·.inherited? slot)
    (by cases slot <;> rfl) (fun d _ step => hook?_take d step slot) hsteps

/-- The whitelist is what the steps name and what the parents allow. -/
theorem allows_build (hsteps : ParentsDistinct steps) (name : String) :
    (build typeName steps).allows name = true ↔
      (∃ names, .attributes names ∈ steps ∧ name ∈ names) ∨
      (∃ resolver, .resolve name resolver ∈ steps) ∨
      ∃ parent, .extending parent ∈ steps ∧ parent.allows name = true := by
  change ((build typeName steps).attribute? name).isSome = true ↔ _
  rw [attribute?_build hsteps, Option.isSome_or, Bool.or_eq_true, List.findSome?_isSome_iff,
    List.findSome?_isSome_iff]
  constructor
  · rintro (⟨step, hstep, hown⟩ | ⟨step, hstep, hoffered⟩)
    · obtain ⟨resolver, rfl⟩ := eq_resolve_of_isSome (by simpa using hown)
      exact Or.inr (Or.inl ⟨resolver, List.mem_reverse.mp hstep⟩)
    · cases step with
      | attributes names =>
          have hname : name ∈ names := by simpa [offered?] using hoffered
          exact Or.inl ⟨names, hstep, hname⟩
      | extending parent => exact Or.inr (Or.inr ⟨parent, hstep, hoffered⟩)
      | resolve other resolver => cases hoffered
      | mapParams slot hook => cases hoffered
  · rintro (⟨names, hstep, hname⟩ | ⟨resolver, hstep⟩ | ⟨parent, hstep, hallows⟩)
    · exact Or.inr ⟨_, hstep, by simp [offered?, hname]⟩
    · exact Or.inl ⟨_, List.mem_reverse.mpr hstep, by simp [resolver?]⟩
    · exact Or.inr ⟨_, hstep, hallows⟩

end Descriptor

end FieldQuery
