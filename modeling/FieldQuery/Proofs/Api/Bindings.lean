import FieldQuery.Api
import FieldQuery.Proofs.Fields
import Mathlib.Data.List.Nodup

/-!
Bindings of a table. Binding an operation and mounting another table keep
whatever holds of all operations, and keep the names distinct. A mounted table
is found below its point, and what was bound elsewhere is found there as before.
-/

namespace FieldQuery.Api

variable {Obj σ : Type} {api root other : Api Obj σ} {point : String}

/-- Every operation of the API has a property. -/
def All (P : Operation Obj σ → Prop) (api : Api Obj σ) : Prop :=
  ∀ binding ∈ api.operations, P binding.2

theorem All.withOperation {P : Operation Obj σ → Prop} (h : api.All P) (name : String)
    {operation : Operation Obj σ} (hoperation : P operation) :
    (api.withOperation name operation).All P := by
  intro binding hbinding
  rcases Fields.mem_put hbinding with hold | hnew
  · exact h binding hold
  · rwa [hnew]

theorem All.mount {P : Operation Obj σ → Prop} (h : api.All P) (hother : other.All P)
    (point : String) : (api.mount point other).All P := by
  obtain ⟨operations⟩ := other
  unfold Api.mount
  induction operations generalizing api with
  | nil => exact h
  | cons binding rest ih =>
      obtain ⟨hbinding, hrest⟩ := List.forall_mem_cons.mp hother
      exact ih (h.withOperation _ hbinding) hrest

/-! Distinct names. -/

theorem nodup_withOperation (h : api.operationNames.Nodup) (name : String)
    (operation : Operation Obj σ) : (api.withOperation name operation).operationNames.Nodup :=
  Fields.nodup_put h name operation

theorem nodup_mount (h : api.operationNames.Nodup) (point : String) (other : Api Obj σ) :
    (api.mount point other).operationNames.Nodup := by
  obtain ⟨operations⟩ := other
  unfold mount
  induction operations generalizing api with
  | nil => exact h
  | cons binding rest ih => exact ih (nodup_withOperation h _ binding.2)

/-! Bindings of a table with another one mounted. -/

/-- A table that binds nothing at a point, above it or below it. -/
structure Free (root : Api Obj σ) (point : String) : Prop where
  self : Fields.get? root.operations point = none
  above : ∀ head tail, point = head ++ "." ++ tail → Fields.get? root.operations head = none
  below : ∀ name, Fields.get? root.operations (point ++ "." ++ name) = none

theorem operations_mount (root other : Api Obj σ) (hpoint : point ≠ "") :
    (root.mount point other).operations =
      Fields.extend root.operations
        (other.operations.map (Prod.map (point ++ "." ++ ·) id)) := by
  have hmounted (name : String) : mountedName point name = point ++ "." ++ name :=
    if_neg (by simpa using hpoint)
  unfold mount
  generalize other.operations = operations
  induction operations generalizing root with
  | nil => rfl
  | cons field rest ih =>
      obtain ⟨name, operation⟩ := field
      rw [List.foldl_cons, ih]
      simp only [hmounted]
      rfl

theorem under_injective (point : String) : Function.Injective (point ++ "." ++ ·) :=
  fun _ _ h => (String.append_right_inj _).mp h

/-- Below the point of mount, names are bound as they are in the mounted table. -/
theorem get?_mount_under (hpoint : point ≠ "") (hfree : root.Free point)
    (hdistinct : other.operationNames.Nodup) (name : String) :
    Fields.get? (root.mount point other).operations (point ++ "." ++ name) =
      Fields.get? other.operations name := by
  have hrenamed := Fields.get?_map (under_injective point) other.operations name
  rw [operations_mount root other hpoint]
  cases hname : Fields.get? other.operations name with
  | none => rw [Fields.get?_extend_of_none (hrenamed.trans hname), hfree.below]
  | some operation =>
      refine Fields.get?_extend ?_ (hrenamed.trans hname)
      rw [Fields.names_map]
      exact List.Nodup.map (under_injective point) hdistinct

/-- All other names are bound as they were. -/
theorem get?_mount_outside (root other : Api Obj σ) (hpoint : point ≠ "") {name : String}
    (hname : ∀ rest, name ≠ point ++ "." ++ rest) :
    Fields.get? (root.mount point other).operations name = Fields.get? root.operations name := by
  rw [operations_mount root other hpoint]
  apply Fields.get?_extend_of_not_mem
  rw [Fields.names_map]
  intro hmem
  obtain ⟨rest, -, hrest⟩ := List.mem_map.mp hmem
  exact hname rest hrest.symm

end FieldQuery.Api
