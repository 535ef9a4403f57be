import FieldQuery.Context

/-!
Entities: objects seen through the descriptor of their type, once reading them
is authorized.
-/

namespace FieldQuery

structure Entity (Obj : Type) where
  scope : Scope Obj
  object : Obj
  descriptor : Descriptor Obj

namespace Entity

variable {Obj σ : Type}

/-- Opens an object for reading. -/
def open? (ctx : Context Obj σ) (o : Obj) : Except Failure (Entity Obj) :=
  match ctx.descriptor? o with
  | none => .error (.render ("no entity registered for " ++ ctx.domain.typeName o))
  | some descriptor => do
      ctx.authorize .read (.object o)
      return ⟨ctx.toScope, o, descriptor⟩

def unknownAttribute (e : Entity Obj) (name : String) : Failure :=
  .unknownAttribute (e.scope.domain.typeName e.object) name

/-- Reads a whitelisted attribute. Computed attributes may read others in turn.
The depth is a limit of this model, not of what it describes: `field` allows
one step more than there are attributes, which a chain of different attributes
never exceeds. Behind it stands the failure of an attribute that reads itself,
also if it would come to an end with other arguments. -/
def fieldWithin (e : Entity Obj) :
    Nat → String → List (Value Obj) → Except Failure (Value Obj)
  | 0, name, _ => .error (.render ("attribute '" ++ name ++ "' reads itself"))
  | depth + 1, name, args =>
      match e.descriptor.attribute? name with
      | none => .error (e.unknownAttribute name)
      | some (some resolver) =>
          resolver ⟨e.scope, e.object, e.descriptor.typeName, e.descriptor.attributeNames,
            e.fieldWithin depth⟩ args
      | some none =>
          match e.scope.domain.field e.object name args with
          | some v => .ok v
          | none => .error (e.unknownAttribute name)

def field (e : Entity Obj) (name : String) (args : List (Value Obj)) :
    Except Failure (Value Obj) :=
  e.fieldWithin (e.descriptor.attributes.length + 1) name args

theorem open?_of_readable {ctx : Context Obj σ} {o : Obj} {d : Descriptor Obj}
    (hd : ctx.descriptor? o = some d) (hread : ctx.authorizer .read (.object o) = true) :
    open? ctx o = .ok ⟨ctx.toScope, o, d⟩ := by
  have hallowed : ctx.authorize .read (.object o) = .ok () := if_pos hread
  rw [open?, hd]
  dsimp only
  rw [hallowed]
  rfl

theorem open?_of_denied {ctx : Context Obj σ} {o : Obj} {d : Descriptor Obj}
    (hd : ctx.descriptor? o = some d) (hread : ctx.authorizer .read (.object o) = false) :
    open? ctx o = .error (.unauthorized .read (ctx.domain.typeName o)) := by
  have hrefused : ctx.authorize .read (.object o) =
      .error (.unauthorized .read (ctx.domain.typeName o)) := if_neg (Bool.eq_false_iff.mp hread)
  rw [open?, hd]
  dsimp only
  rw [hrefused]
  rfl

theorem open?_of_unregistered {ctx : Context Obj σ} {o : Obj} (hd : ctx.descriptor? o = none) :
    open? ctx o = .error (.render ("no entity registered for " ++ ctx.domain.typeName o)) := by
  rw [open?, hd]

/-- What is not on the whitelist is an unknown attribute, whatever the object holds. -/
theorem field_of_unlisted {e : Entity Obj} {name : String} (h : e.descriptor.allows name = false)
    (args : List (Value Obj)) : e.field name args = .error (e.unknownAttribute name) := by
  have hnone : e.descriptor.attribute? name = none :=
    Option.not_isSome_iff_eq_none.mp (Bool.eq_false_iff.mp h)
  rw [field, fieldWithin, hnone]

end Entity

end FieldQuery
