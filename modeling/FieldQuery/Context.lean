import FieldQuery.Entity.Descriptor

/-!
Contexts: everything that one resolution consults.
-/

namespace FieldQuery

/-- A moment after which a resolution stops: already over, or still ahead. Time
stands still during a request: a deadline that passes on the way is not
modelled. -/
inductive Deadline where
  | past
  | ahead
deriving DecidableEq, Inhabited

/-- Finds a record of a type by its id, with hinted relations loaded. -/
abbrev DataAccess (Obj σ : Type) :=
  String → Value Obj → Hints → Run σ (Option (Value Obj))

structure Context (Obj σ : Type) extends Scope Obj where
  entities : EntityRegistry Obj
  dataAccess : Option (DataAccess Obj σ)
  deadline : Option Deadline

namespace Context

variable {Obj σ : Type}

/-- Lenient, allowing everything, and knowing nothing. -/
def ofDomain (domain : Domain Obj) : Context Obj σ :=
  { domain, bindings := [], params := [], mode := .lenient, authorizer := .allowAll,
    entities := [], dataAccess := none, deadline := none }

def bind (ctx : Context Obj σ) (name : String) (v : Value Obj) : Context Obj σ :=
  { ctx with bindings := Fields.put ctx.bindings name v }

def withParam (ctx : Context Obj σ) (name : String) (v : Value Obj) : Context Obj σ :=
  { ctx with params := Fields.put ctx.params name v }

def withParams (ctx : Context Obj σ) (params : Fields (Value Obj)) : Context Obj σ :=
  { ctx with params := Fields.extend ctx.params params }

def binding? (ctx : Context Obj σ) (name : String) : Option (Value Obj) :=
  Fields.get? ctx.bindings name

def param? (ctx : Context Obj σ) (name : String) : Option (Value Obj) :=
  Fields.get? ctx.params name

def isStrict (ctx : Context Obj σ) : Bool := ctx.mode == .strict

def checkDeadline (ctx : Context Obj σ) : Except Failure Unit :=
  match ctx.deadline with
  | some .past => .error .deadlineExceeded
  | _ => .ok ()

/-- Descriptor of the type of an object. -/
def descriptor? (ctx : Context Obj σ) (o : Obj) : Option (Descriptor Obj) :=
  Fields.get? ctx.entities (ctx.domain.typeId o)

end Context

end FieldQuery
