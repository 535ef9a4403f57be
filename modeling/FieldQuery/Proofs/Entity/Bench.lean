import Mathlib.Logic.Function.Basic
import FieldQuery.Proofs.Entity.Builder

/-!
Descriptors built side by side on a bench. A step works on the descriptor of
one handle, and it may name another as its parent, which it takes as it stands
at that moment.
-/

namespace FieldQuery

variable {Obj : Type}

/-- Descriptors side by side, by their handles. -/
abbrev Bench (Obj : Type) := String → Descriptor Obj

/-- A step on the descriptor of a handle, with the handle of its parent. -/
structure BuilderCommand (Obj : Type) where
  handle : String
  step : BuilderStep Obj String

namespace Bench

open Descriptor BuilderStep

def fresh (typeOf : String → String) : Bench Obj := fun handle => .ofType (typeOf handle)

/-- A step with its parent as it stands on the bench. -/
def resolved (bench : Bench Obj) : BuilderStep Obj String → BuilderStep Obj (Descriptor Obj)
  | .attributes names => .attributes names
  | .resolve name resolver => .resolve name resolver
  | .extending parent => .extending (bench parent)
  | .mapParams slot hook => .mapParams slot hook

def apply (bench : Bench Obj) (command : BuilderCommand Obj) : Bench Obj :=
  Function.update bench command.handle
    ((bench command.handle).take (bench.resolved command.step))

def run (bench : Bench Obj) (commands : List (BuilderCommand Obj)) : Bench Obj :=
  commands.foldl apply bench

/-- The steps taken on the descriptor of one handle, with each parent as it
stood when it was extended. -/
def stepsOf (bench : Bench Obj) (handle : String) :
    List (BuilderCommand Obj) → List (BuilderStep Obj (Descriptor Obj))
  | [] => []
  | command :: rest =>
      let later := stepsOf (bench.apply command) handle rest
      if command.handle = handle then bench.resolved command.step :: later else later

variable {bench : Bench Obj} {handle : String}

theorem resolved_eq_extending {step : BuilderStep Obj String} {parent : Descriptor Obj}
    (h : bench.resolved step = .extending parent) :
    ∃ other, step = .extending other ∧ parent = bench other := by
  cases step with
  | extending other =>
      cases h
      exact ⟨other, rfl, rfl⟩
  | _ => cases h

theorem apply_of_ne {command : BuilderCommand Obj} (h : command.handle ≠ handle) :
    bench.apply command handle = bench handle :=
  Function.update_of_ne (Ne.symm h) _ _

theorem run_of_ne {commands : List (BuilderCommand Obj)}
    (h : ∀ command ∈ commands, command.handle ≠ handle) :
    bench.run commands handle = bench handle := by
  induction commands generalizing bench with
  | nil => rfl
  | cons command rest ih =>
      obtain ⟨hcommand, hrest⟩ := List.forall_mem_cons.mp h
      exact (ih hrest).trans (apply_of_ne hcommand)

theorem run_eq_foldl (bench : Bench Obj) (commands : List (BuilderCommand Obj)) (handle : String) :
    bench.run commands handle = (bench.stepsOf handle commands).foldl take (bench handle) := by
  induction commands generalizing bench with
  | nil => rfl
  | cons command rest ih =>
      change (bench.apply command).run rest handle = _
      rw [ih, stepsOf]
      split
      next hhandle =>
        subst hhandle
        rw [List.foldl_cons, apply, Function.update_self]
      next hhandle => rw [apply_of_ne hhandle]

theorem run_fresh (typeOf : String → String) (commands : List (BuilderCommand Obj))
    (handle : String) :
    (fresh typeOf).run commands handle =
      build (typeOf handle) ((fresh typeOf).stepsOf handle commands) :=
  run_eq_foldl _ commands handle

/-- A parent that was extended is what the commands before had made of its handle. -/
theorem exists_of_extending {commands : List (BuilderCommand Obj)} {parent : Descriptor Obj}
    (h : .extending parent ∈ bench.stepsOf handle commands) :
    ∃ before other after, commands = before ++ ⟨handle, .extending other⟩ :: after ∧
      parent = bench.run before other := by
  induction commands generalizing bench with
  | nil => cases h
  | cons command rest ih =>
      rw [stepsOf] at h
      split at h
      next hhandle =>
        rcases List.mem_cons.mp h with hhead | hrest
        · obtain ⟨other, hstep, rfl⟩ := resolved_eq_extending hhead.symm
          refine ⟨[], other, rest, ?_, rfl⟩
          rw [← hhandle, ← hstep]
          rfl
        · obtain ⟨before, other, after, rfl, hparent⟩ := ih hrest
          exact ⟨command :: before, other, after, rfl, hparent⟩
      next =>
        obtain ⟨before, other, after, rfl, hparent⟩ := ih h
        exact ⟨command :: before, other, after, rfl, hparent⟩

theorem nodup_run (h : ∀ handle, (bench handle).attributeNames.Nodup)
    (commands : List (BuilderCommand Obj)) (handle : String) :
    (bench.run commands handle).attributeNames.Nodup := by
  induction commands generalizing bench with
  | nil => exact h handle
  | cons command rest ih =>
      refine ih fun other => ?_
      by_cases hother : command.handle = other
      · rw [apply, hother, Function.update_self]
        refine nodup_take (h other) fun parent hparent => ?_
        obtain ⟨source, -, rfl⟩ := resolved_eq_extending hparent
        exact h source
      · rw [apply_of_ne hother]
        exact h other

theorem parentsDistinct_stepsOf (typeOf : String → String)
    (commands : List (BuilderCommand Obj)) (handle : String) :
    ParentsDistinct ((fresh typeOf).stepsOf handle commands) := by
  intro parent hparent
  obtain ⟨before, other, -, -, rfl⟩ := exists_of_extending hparent
  have hfresh : ∀ handle, ((fresh typeOf : Bench Obj) handle).attributeNames.Nodup :=
    fun _ => List.nodup_nil
  exact nodup_run hfresh before other

/-- A descriptor in terms of the steps that were taken on it, whatever was
built beside it in between: the last resolver and the last hook of its own
count, and without one the first that was offered. Its parents are descriptors
as the commands before had built them; steps on other descriptors, its children
among them, leave it as it is. -/
theorem descriptor_of_run (typeOf : String → String) (commands : List (BuilderCommand Obj))
    (handle : String) :
    let d := (fresh typeOf).run commands handle
    let steps := (fresh typeOf).stepsOf handle commands
    (∀ name, d.allows name = true ↔
      (∃ names, .attributes names ∈ steps ∧ name ∈ names) ∨
      (∃ resolver, .resolve name resolver ∈ steps) ∨
      ∃ parent, .extending parent ∈ steps ∧ parent.allows name = true) ∧
    (∀ name, d.attribute? name =
      (steps.reverse.findSome? fun step => (step.resolver? name).map some).or
        (steps.findSome? (·.offered? name))) ∧
    (∀ slot, d.hook? slot =
      (steps.reverse.findSome? (·.hook? slot)).or (steps.findSome? (·.inherited? slot))) ∧
    d.attributeNames.Nodup ∧
    (∀ parent, .extending parent ∈ steps → ∃ before other after,
      commands = before ++ ⟨handle, .extending other⟩ :: after ∧
        parent = (fresh typeOf).run before other) ∧
    ∀ later : List (BuilderCommand Obj), (∀ command ∈ later, command.handle ≠ handle) →
      (fresh typeOf).run (commands ++ later) handle = d := by
  have hsteps := parentsDistinct_stepsOf typeOf commands handle
  dsimp only
  refine ⟨?_, ?_, ?_, ?_, fun _ => exists_of_extending, fun later hlater => ?_⟩
  · rw [run_fresh]
    exact allows_build hsteps
  · rw [run_fresh]
    exact attribute?_build hsteps
  · rw [run_fresh]
    exact hook?_build hsteps
  · rw [run_fresh]
    exact nodup_build hsteps
  · rw [run, List.foldl_append]
    exact run_of_ne hlater

/-- An account and an administrator, who is an account with more attributes. -/
def accounts : List (BuilderCommand Unit) :=
  [⟨"account", .attributes ["id", "email"]⟩,
    ⟨"account", .mapParams .either .ok⟩,
    ⟨"admin", .attributes ["permissions"]⟩,
    ⟨"admin", .extending "account"⟩]

/-- The administrator has what the account has, and the account stays as it was. -/
theorem accounts_described :
    ((fresh id).run accounts "admin").allows "email" = true ∧
      ((fresh id).run accounts "admin").attributeNames.Nodup ∧
      ((fresh id).run accounts "account").allows "permissions" = false ∧
      (fresh id).run (accounts ++ [⟨"admin", .attributes ["secret"]⟩]) "account" =
        (fresh id).run accounts "account" := by
  obtain ⟨hallows, -, -, hnames, -, -⟩ := descriptor_of_run id accounts "admin"
  obtain ⟨-, -, -, -, -, hlater⟩ := descriptor_of_run id accounts "account"
  have hadmin : ((fresh id : Bench Unit).run accounts "admin").allows "email" = true := by
    rw [hallows]
    refine Or.inr (Or.inr ⟨(fresh id).run (accounts.take 3) "account", ?_, rfl⟩)
    exact .tail _ (.head _)
  exact ⟨hadmin, hnames, rfl, hlater _ (by simp)⟩

end Bench

end FieldQuery
