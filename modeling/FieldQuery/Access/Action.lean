/-!
Actions that an authorizer decides on.
-/

namespace FieldQuery

inductive Action where
  | read
  | create
  | update
  | destroy
deriving DecidableEq, Inhabited

namespace Action

def name : Action → String
  | .read => "read"
  | .create => "create"
  | .update => "update"
  | .destroy => "destroy"

def ofName? : String → Option Action
  | "read" => some .read
  | "create" => some .create
  | "update" => some .update
  | "destroy" => some .destroy
  | _ => none

end Action

end FieldQuery
