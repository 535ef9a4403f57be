import FieldQuery.Api
import FieldQuery.Host.World

/-!
Scripts: bodies of operations, computed attributes and parameter hooks, given
as data.
-/

namespace FieldQuery.Host

/-- A body of one instruction, perhaps behind guards. `own` instructions
depend on where the body stands. -/
inductive Body (Own : Type) where
  | value (v : Value Record)
  | arg (place : Nat)
  | args
  | binding (name : String)
  | param (name : String)
  /-- An argument as an integer. -/
  | int (place : Nat)
  /-- An argument as a number, doubled. -/
  | double (place : Nat)
  | fail (e : Failure)
  | guard (action : Action) (typeName : String) (body : Body Own)
  | own (instruction : Own)

inductive OperationOwn where
  | name
  | hints
  | hintsFor (relation : String)

inductive AttributeOwn where
  | field (name : String)
  | member (name : String)
  | typeName
  | attributes

namespace Body

variable {Own : Type}

def two : Double := .ofNat 2

def eval (scope : Scope Record) (args : List (Value Record))
    (evalOwn : Own → Except Failure (Value Record)) : Body Own → Except Failure (Value Record)
  | .value v => .ok v
  | .arg place => .ok (args[place]?.getD .null)
  | .args => .ok (.list args)
  | .binding name => .ok ((Fields.get? scope.bindings name).getD .null)
  | .param name => .ok ((Fields.get? scope.params name).getD .null)
  | .int place => .ok (((args[place]?.getD .null).asInt64?.map Value.int).getD .null)
  | .double place =>
      let x := ((args[place]?.getD .null).asDouble?).getD (.zero false)
      .ok (.float (x.mul two))
  | .fail e => .error e
  | .guard action typeName body => do
      scope.authorize action (.type typeName)
      eval scope args evalOwn body
  | .own instruction => evalOwn instruction

end Body

def OperationOwn.eval {σ : Type} (inv : Invocation Record σ) :
    OperationOwn → Except Failure (Value Record)
  | .name => .ok (.string inv.name)
  | .hints => .ok (.string inv.hints.text)
  | .hintsFor relation =>
      .ok (((inv.hints.get? relation).map fun hints => Value.string hints.text).getD .null)

def AttributeOwn.eval (view : EntityView Record) (args : List (Value Record)) :
    AttributeOwn → Except Failure (Value Record)
  | .field name => view.field name args
  | .member name => .ok ((view.scope.domain.field view.object name args).getD .null)
  | .typeName => .ok (.string view.typeName)
  | .attributes => .ok (.list (view.attributes.map Value.string))

/-- Operation of a body. Each run leaves a trace. -/
def Body.operation (body : Body OperationOwn) : Operation Record World := fun inv => ExceptT.mk do
  World.record (.operation inv.name inv.args inv.hints)
  return body.eval inv.ctx.toScope inv.args (OperationOwn.eval inv)

def Body.resolver (body : Body AttributeOwn) : Resolver Record := fun view args =>
  body.eval view.scope args (AttributeOwn.eval view args)

inductive HookStep where
  | drop (name : String)
  /-- Moves a field, if it is there, to the place of another name. -/
  | rename (source target : String)
  | set (name : String) (v : Value Record)
  | fail (e : Failure)

def HookStep.run (params : MutationParams Record) :
    HookStep → Except Failure (MutationParams Record)
  | .drop name => .ok (Fields.erase params name)
  | .rename source target =>
      match Fields.get? params source with
      | some v => .ok (Fields.put (Fields.erase params source) target v)
      | none => .ok params
  | .set name v => .ok (Fields.put params name v)
  | .fail e => .error e

def hook (steps : List HookStep) : ParamsHook Record := fun params =>
  steps.foldlM HookStep.run params

/-- Which mutations a hook is for; `either` serves those without their own. -/
inductive HookSlot where
  | create
  | update
  | either

/-- A descriptor given as the steps that build it. -/
inductive DescriptorPlan where
  | start (typeName : String)
  | attributes (d : DescriptorPlan) (names : List String)
  | resolve (d : DescriptorPlan) (name : String) (body : Body AttributeOwn)
  | extends (d parent : DescriptorPlan)
  | hook (d : DescriptorPlan) (slot : HookSlot) (steps : List HookStep)

def DescriptorPlan.build : DescriptorPlan → Descriptor Record
  | .start typeName => .ofType typeName
  | .attributes d names => d.build.withAttributes names
  | .resolve d name body => d.build.withResolver name body.resolver
  | .extends d parent => d.build.extending parent.build
  | .hook d slot steps => match slot with
    | .create => d.build.withCreateParams (Host.hook steps)
    | .update => d.build.withUpdateParams (Host.hook steps)
    | .either => d.build.withParams (Host.hook steps)

end FieldQuery.Host
