import FieldQuery.Proofs.Simulation.Outcome
import FieldQuery.Proofs.Simulation.Tails

/-!
Values of two hosts that correspond: the same data, with corresponding objects
in the same places. What leaves without a selection is then the same.
-/

namespace FieldQuery

variable {Obj Obj' : Type}

namespace Value

mutual

inductive Corresponds (R : Obj → Obj' → Prop) : Value Obj → Value Obj' → Prop
  | null : Corresponds R .null .null
  | bool (b : Bool) : Corresponds R (.bool b) (.bool b)
  | int (n : Int64) : Corresponds R (.int n) (.int n)
  | float (x : Double) : Corresponds R (.float x) (.float x)
  | string (s : String) : Corresponds R (.string s) (.string s)
  | list {items : List (Value Obj)} {items' : List (Value Obj')}
      (h : ItemsCorrespond R items items') : Corresponds R (.list items) (.list items')
  | map {fields : List (String × Value Obj)} {fields' : List (String × Value Obj')}
      (h : FieldsCorrespond R fields fields') : Corresponds R (.map fields) (.map fields')
  | object {o : Obj} {o' : Obj'} (h : R o o') : Corresponds R (.object o) (.object o')

inductive ItemsCorrespond (R : Obj → Obj' → Prop) : List (Value Obj) → List (Value Obj') → Prop
  | nil : ItemsCorrespond R [] []
  | cons {v : Value Obj} {v' : Value Obj'} {items : List (Value Obj)} {items' : List (Value Obj')}
      (h : Corresponds R v v') (hitems : ItemsCorrespond R items items') :
      ItemsCorrespond R (v :: items) (v' :: items')

inductive FieldsCorrespond (R : Obj → Obj' → Prop) :
    List (String × Value Obj) → List (String × Value Obj') → Prop
  | nil : FieldsCorrespond R [] []
  | cons (name : String) {v : Value Obj} {v' : Value Obj'} {fields : List (String × Value Obj)}
      {fields' : List (String × Value Obj')} (h : Corresponds R v v')
      (hfields : FieldsCorrespond R fields fields') :
      FieldsCorrespond R ((name, v) :: fields) ((name, v') :: fields')

end

variable {R : Obj → Obj' → Prop}

/-! Equality of objects makes corresponding values equal. -/

mutual

theorem corresponds_refl : (v : Value Obj) → Corresponds Eq v v
  | .null => .null
  | .bool b => .bool b
  | .int n => .int n
  | .float x => .float x
  | .string s => .string s
  | .list items => .list (itemsCorrespond_refl items)
  | .map fields => .map (fieldsCorrespond_refl fields)
  | .object _ => .object rfl

theorem itemsCorrespond_refl : (items : List (Value Obj)) → ItemsCorrespond Eq items items
  | [] => .nil
  | v :: items => .cons (corresponds_refl v) (itemsCorrespond_refl items)

theorem fieldsCorrespond_refl :
    (fields : List (String × Value Obj)) → FieldsCorrespond Eq fields fields
  | [] => .nil
  | (name, v) :: fields => .cons name (corresponds_refl v) (fieldsCorrespond_refl fields)

end

mutual

theorem Corresponds.eq {v w : Value Obj} : Corresponds Eq v w → v = w
  | .null | .bool _ | .int _ | .float _ | .string _ => rfl
  | .list h => congrArg Value.list h.eq
  | .map h => congrArg Value.map h.eq
  | .object h => congrArg Value.object h

theorem ItemsCorrespond.eq {items others : List (Value Obj)} :
    ItemsCorrespond Eq items others → items = others
  | .nil => rfl
  | .cons h hitems => by rw [h.eq, hitems.eq]

theorem FieldsCorrespond.eq {fields others : List (String × Value Obj)} :
    FieldsCorrespond Eq fields others → fields = others
  | .nil => rfl
  | .cons name h hfields => by rw [h.eq, hfields.eq]

end

/-! Corresponding values are told apart by nothing but their objects. -/

theorem Corresponds.isNull_eq {v : Value Obj} {v' : Value Obj'} (h : Corresponds R v v') :
    v.isNull = v'.isNull := by
  cases h <;> rfl

theorem Corresponds.isSimple_eq {v : Value Obj} {v' : Value Obj'} (h : Corresponds R v v') :
    v.isSimple = v'.isSimple := by
  cases h <;> rfl

theorem ItemsCorrespond.all_isSimple_eq {items : List (Value Obj)} {items' : List (Value Obj')} :
    ItemsCorrespond R items items' → items.all isSimple = items'.all isSimple
  | .nil => rfl
  | .cons h hitems => by
      rw [List.all_cons, List.all_cons, h.isSimple_eq, hitems.all_isSimple_eq]

mutual

theorem Corresponds.toJson_eq {v : Value Obj} {v' : Value Obj'} :
    Corresponds R v v' → v.toJson = v'.toJson
  | .null | .bool _ | .int _ | .float _ | .string _ | .object _ => rfl
  | .list h => congrArg Json.array h.itemsToJson_eq
  | .map h => congrArg Json.object h.fieldsToJson_eq

theorem ItemsCorrespond.itemsToJson_eq {items : List (Value Obj)} {items' : List (Value Obj')} :
    ItemsCorrespond R items items' → itemsToJson items = itemsToJson items'
  | .nil => rfl
  | .cons h hitems => by rw [itemsToJson, itemsToJson, h.toJson_eq, hitems.itemsToJson_eq]

theorem FieldsCorrespond.fieldsToJson_eq {fields : List (String × Value Obj)}
    {fields' : List (String × Value Obj')} :
    FieldsCorrespond R fields fields' → fieldsToJson fields = fieldsToJson fields'
  | .nil => rfl
  | .cons name h hfields => by
      rw [fieldsToJson, fieldsToJson, h.toJson_eq, hfields.fieldsToJson_eq]

end

theorem Corresponds.toLeaf_eq {v : Value Obj} {v' : Value Obj'} (h : Corresponds R v v') :
    v.toLeaf = v'.toLeaf := by
  cases h with
  | list h => rw [toLeaf, toLeaf, h.all_isSimple_eq, h.itemsToJson_eq]
  | map h => exact (Corresponds.map h).toJson_eq
  | object h => rfl
  | _ => rfl

theorem Corresponds.getD_null {v : Option (Value Obj)} {v' : Option (Value Obj')}
    (h : Option.Rel (Corresponds R) v v') : Corresponds R (v.getD .null) (v'.getD .null) := by
  cases h with
  | some h => exact h
  | none => exact .null

theorem FieldsCorrespond.get? {fields : List (String × Value Obj)}
    {fields' : List (String × Value Obj')} (h : FieldsCorrespond R fields fields')
    (key : String) :
    Option.Rel (Corresponds R) (Fields.get? fields key) (Fields.get? fields' key) := by
  induction fields generalizing fields' with
  | nil =>
      cases h
      exact .none
  | cons field fields ih =>
      cases h with
      | cons name hv hfields =>
          by_cases hname : name = key
          · simpa [Fields.get?, hname] using Option.Rel.some hv
          · simpa [Fields.get?, hname] using ih hfields

/-- Plain reads of a name for which corresponding objects answer alike. -/
theorem Corresponds.member? {domain : Domain Obj} {domain' : Domain Obj'} {name : String}
    {args : List (Value Obj)} {args' : List (Value Obj')} {v : Value Obj} {v' : Value Obj'}
    (h : Corresponds R v v')
    (hfield : ∀ o o', v.asObject? = some o → R o o' →
      Option.Rel (Corresponds R) (domain.field o name args) (domain'.field o' name args')) :
    Option.Rel (Corresponds R) (v.member? domain name args) (v'.member? domain' name args') := by
  cases h with
  | map h => exact h.get? name
  | object h => exact hfield _ _ rfl h
  | _ => exact .none

/-- A path leads to corresponding values if the objects on it answer alike for
what is read of them. -/
theorem Corresponds.follow {domain : Domain Obj} {domain' : Domain Obj'}
    {args : List (Value Obj)} {args' : List (Value Obj')} {path : List String}
    {v : Value Obj} {v' : Value Obj'} (h : Corresponds R v v')
    (hfield : (v.followReads domain args path).Within fun o name => ∀ o', R o o' →
      Option.Rel (Corresponds R) (domain.field o name args) (domain'.field o' name args')) :
    Corresponds R (v.follow domain args path) (v'.follow domain' args' path) := by
  induction path generalizing v v' with
  | nil => exact h
  | cons name path ih =>
      rw [followReads] at hfield
      rw [Value.follow, Value.follow, ← h.isNull_eq]
      split
      next => exact h
      next hnull =>
        rw [if_neg hnull] at hfield
        have hmember := h.member? fun o o' ho hR => hfield.left (o, name) (by simp [ho]) o' hR
        exact ih (.getD_null hmember) hfield.right

theorem Corresponds.prefetched {domain : Domain Obj} {domain' : Domain Obj'}
    (hprefetch : ∀ o o' hints, R o o' →
      Option.Rel (Corresponds R) (domain.prefetch o hints) (domain'.prefetch o' hints))
    (hints : Hints) {v : Value Obj} {v' : Value Obj'} (h : Corresponds R v v') :
    Corresponds R (v.prefetched domain hints) (v'.prefetched domain' hints) := by
  have hself := h
  unfold Value.prefetched
  split
  next => exact h
  next =>
    cases h with
    | @object o o' h =>
        dsimp only
        rcases rel_cases (hprefetch o o' hints h) with
          ⟨hnone, hnone'⟩ | ⟨loaded, loaded', hsome, hsome', hloaded⟩
        · rw [hnone, hnone']
          exact hself
        · rw [hsome, hsome']
          exact hloaded
    | _ => exact hself

end Value

end FieldQuery
