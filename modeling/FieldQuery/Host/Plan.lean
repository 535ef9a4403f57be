import FieldQuery.Access.Policy
import FieldQuery.Host.Script
import FieldQuery.Host.Table

/-!
Plans: APIs, entities and contexts given as data, and what they build over a
world.
-/

namespace FieldQuery.Host

structure ModelPlan where
  typeName : String
  singular : String
  plural : String
  rows : List (Value Record)
  object : Option String
  hooks : Option DescriptorPlan
  configured : Bool
  pageSize : Option Nat
  fixedCount : Option Nat
  failing : List String

/-- The model over a table of the world. -/
def ModelPlan.build (plan : ModelPlan) (config : Config) (place : Nat) : Model Record World :=
  let table : Table := ⟨place, plan.object, plan.fixedCount, plan.failing⟩
  let m := Model.ofRepository plan.typeName plan.singular plan.plural table.repository
  let m := match plan.hooks with
    | some d => m.withHooksOf d.build
    | none => m
  let m := if plan.configured then m.configured config else m
  match plan.pageSize with
  | some size => m.withPageSize size
  | none => m

inductive ApiStep where
  | operation (name : String) (body : Body OperationOwn)
  | mount (point : String) (steps : List ApiStep)
  | model (plan : ModelPlan)

abbrev ApiPlan := List ApiStep

/-- Adds tables to those that a plan has made so far. -/
abbrev Building := StateM (List (List (Value Record)))

namespace ApiPlan

mutual

def buildStep (config : Config) (api : Api Record World) : ApiStep → Building (Api Record World)
  | .operation name body => return api.withOperation name body.operation
  | .mount point steps => return api.mount point (← buildSteps config .empty steps)
  | .model plan => do
      let tables ← get
      set (tables ++ [plan.rows])
      return api.withModel (plan.build config tables.length)

def buildSteps (config : Config) (api : Api Record World) :
    List ApiStep → Building (Api Record World)
  | [] => return api
  | step :: rest => do buildSteps config (← buildStep config api step) rest

end

/-- The API of a plan, and the tables that it works on. -/
def build (plan : ApiPlan) (config : Config) : Api Record World × List (List (Value Record)) :=
  (buildSteps config .empty plan).run []

end ApiPlan

structure EntityPlan where
  object : String
  descriptor : DescriptorPlan

/-- Registers descriptors in order; later ones replace earlier ones. -/
def registry (plans : List EntityPlan) : EntityRegistry Record :=
  Fields.ofList (plans.map fun plan => (plan.object, plan.descriptor.build))

/-- Who decides on actions. A denial matches an action and a type, or any. -/
inductive AuthorizerPlan where
  | policy (p : Policy)
  | deny (pairs : List (Option Action × Option String))
  | allowAll

def AuthorizerPlan.build : AuthorizerPlan → Authorizer Record
  | .policy p => p.authorizer Record.domain
  | .deny pairs => fun action subject =>
      !pairs.any fun (denied, typeName) =>
        denied.all (· == action) && typeName.all (· == subject.typeName Record.domain)
  | .allowAll => .allowAll

/-- One answer of a data layer: the record of a type and an id. -/
structure ReloadPlan where
  typeName : String
  id : Value Record
  answer : Except Failure (Value Record)

/-- Data access that answers by the first entry that fits. -/
def dataAccess (plans : List ReloadPlan) : DataAccess Record World := fun typeName id hints =>
  ExceptT.mk do
    World.record (.reload typeName id hints)
    let found := plans.find? fun plan =>
      plan.typeName == typeName && plan.id.same Record.domain id
    match found with
    | none => return .ok none
    | some plan => return plan.answer.map some

/-- Changes to a context; what is absent stays as it is. -/
structure ContextPlan where
  mode : Option Mode
  authorizer : Option AuthorizerPlan
  bindings : List (String × Value Record)
  params : List (String × Value Record)
  reloads : Option (List ReloadPlan)
  deadline : Option Deadline

namespace ContextPlan

def empty : ContextPlan := ⟨none, none, [], [], none, none⟩

def apply (plan : ContextPlan) (ctx : Context Record World) : Context Record World :=
  { ctx with
    mode := plan.mode.getD ctx.mode
    authorizer := (plan.authorizer.map AuthorizerPlan.build).getD ctx.authorizer
    bindings := Fields.extend ctx.bindings plan.bindings
    params := Fields.extend ctx.params plan.params
    dataAccess := (plan.reloads.map dataAccess).or ctx.dataAccess
    deadline := plan.deadline.or ctx.deadline }

end ContextPlan

end FieldQuery.Host
