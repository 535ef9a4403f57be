import FieldQuery.Access.Authorizer
import FieldQuery.Run

/-!
Descriptors of entity types: the whitelist of attributes a selection may
reach, attributes computed by the entity, and hooks on mutation parameters.
-/

namespace FieldQuery

/-- How failures inside an answer surface: raised, or as `null`. -/
inductive Mode where
  | strict
  | lenient
deriving DecidableEq, Inhabited

/-- What a request brings along: values bound by the caller, named parameters,
the mode, and the authorizer to ask. -/
structure Scope (Obj : Type) where
  domain : Domain Obj
  bindings : Fields (Value Obj)
  params : Fields (Value Obj)
  mode : Mode
  authorizer : Authorizer Obj

namespace Scope

variable {Obj : Type}

def authorize (scope : Scope Obj) (action : Action) (subject : Subject Obj) :
    Except Failure Unit :=
  if scope.authorizer action subject then .ok ()
  else .error (.unauthorized action (subject.typeName scope.domain))

def resolveParam (scope : Scope Obj) : Param → Value Obj
  | .named name => (Fields.get? scope.params name).getD .null
  | .number value => .float value
  | .literal text => .string text

/-- Values of call parameters. A name without a value is `null`. -/
def resolveParams (scope : Scope Obj) (params : List Param) : List (Value Obj) :=
  params.map scope.resolveParam

/-- Keeps a failure inside the part of the answer that raised it: in lenient
mode contained failures become `null`. -/
def contain (scope : Scope Obj) : Except Failure Json → Except Failure Json
  | .ok v => .ok v
  | .error e => if e.isContained && scope.mode == .lenient then .ok .null else .error e

end Scope

/-- What a computed attribute sees of its entity: the scope, the object, its
descriptor's type and attribute names, and the whitelisted attributes. It is
assumed to use nothing else of the context: neither data access nor the
registry, and no rendering of nested selections. -/
structure EntityView (Obj : Type) where
  scope : Scope Obj
  object : Obj
  typeName : String
  attributes : List String
  field : String → List (Value Obj) → Except Failure (Value Obj)

/-- A computed attribute, assumed to be pure: its result depends on nothing but
the view and the arguments, and it changes nothing. -/
abbrev Resolver (Obj : Type) :=
  EntityView Obj → List (Value Obj) → Except Failure (Value Obj)

/-- Parameters of a mutation, keyed by field name. -/
abbrev MutationParams (Obj : Type) := Fields (Value Obj)

abbrev ParamsHook (Obj : Type) := MutationParams Obj → Except Failure (MutationParams Obj)

/-- Attributes without a resolver are read from the object. -/
structure Descriptor (Obj : Type) where
  typeName : String
  attributes : Fields (Option (Resolver Obj))
  createParams : Option (ParamsHook Obj)
  updateParams : Option (ParamsHook Obj)
  params : Option (ParamsHook Obj)

namespace Descriptor

variable {Obj : Type}

def ofType (typeName : String) : Descriptor Obj := ⟨typeName, [], none, none, none⟩

/-- Takes over what a parent exposes; own attributes and hooks win, and the
parent's attributes come first. -/
def extending (d parent : Descriptor Obj) : Descriptor Obj :=
  { d with
    attributes := Fields.extend parent.attributes d.attributes
    createParams := d.createParams.or parent.createParams
    updateParams := d.updateParams.or parent.updateParams
    params := d.params.or parent.params }

/-- Adds a plain attribute, unless the name is taken. -/
def withAttribute (d : Descriptor Obj) (name : String) : Descriptor Obj :=
  if Fields.has d.attributes name then d
  else { d with attributes := Fields.put d.attributes name none }

def withAttributes (d : Descriptor Obj) (names : List String) : Descriptor Obj :=
  names.foldl withAttribute d

/-- Adds a computed attribute, in the place of an earlier one of that name. -/
def withResolver (d : Descriptor Obj) (name : String) (resolver : Resolver Obj) :
    Descriptor Obj :=
  { d with attributes := Fields.put d.attributes name (some resolver) }

def withCreateParams (d : Descriptor Obj) (hook : ParamsHook Obj) : Descriptor Obj :=
  { d with createParams := some hook }

def withUpdateParams (d : Descriptor Obj) (hook : ParamsHook Obj) : Descriptor Obj :=
  { d with updateParams := some hook }

/-- Sets the hook for mutations that have none of their own. -/
def withParams (d : Descriptor Obj) (hook : ParamsHook Obj) : Descriptor Obj :=
  { d with params := some hook }

def attribute? (d : Descriptor Obj) (name : String) : Option (Option (Resolver Obj)) :=
  Fields.get? d.attributes name

def allows (d : Descriptor Obj) (name : String) : Bool := Fields.has d.attributes name

def attributeNames (d : Descriptor Obj) : List String := Fields.names d.attributes

def createHook (d : Descriptor Obj) : Option (ParamsHook Obj) := d.createParams.or d.params

def updateHook (d : Descriptor Obj) : Option (ParamsHook Obj) := d.updateParams.or d.params

end Descriptor

/-- Descriptors by the `TypeId` of the objects that they describe. The type name
of a descriptor is its own and need not be theirs. -/
abbrev EntityRegistry (Obj : Type) := Fields (Descriptor Obj)

end FieldQuery
