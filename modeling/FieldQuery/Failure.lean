import FieldQuery.Access.Action

/-!
Ways in which a request fails, their texts, and how they cross the wire.
-/

namespace FieldQuery

/-- What a failure means to the other side of the wire. -/
inductive FailureKind where
  | cacheMiss
  | unauthorized
  | badRequest
  | timeout
  | internal
deriving DecidableEq, Inhabited

namespace FailureKind

def code : FailureKind → String
  | .cacheMiss => "CACHE_MISS"
  | .unauthorized => "UNAUTHORIZED"
  | .badRequest => "BAD_REQUEST"
  | .timeout => "TIMEOUT"
  | .internal => "INTERNAL"

/-- Unknown codes are internal failures. -/
def ofCode : String → FailureKind
  | "CACHE_MISS" => .cacheMiss
  | "UNAUTHORIZED" => .unauthorized
  | "BAD_REQUEST" => .badRequest
  | "TIMEOUT" => .timeout
  | _ => .internal

/-- Status of an HTTP response for this kind. -/
def status : FailureKind → Nat
  | .cacheMiss => 404
  | .unauthorized => 401
  | .badRequest => 400
  | .timeout => 504
  | .internal => 500

theorem ofCode_code (k : FailureKind) : ofCode k.code = k := by cases k <;> rfl

end FailureKind

inductive Failure where
  /-- Malformed schema text; `rest` starts at the point of failure. -/
  | parse (message rest : String)
  /-- No cache tier knows the fingerprint. -/
  | cacheMiss (fingerprint : String)
  | unauthorized (action : Action) (subject : String)
  /-- No prefix of the dotted name is bound. -/
  | unknownOperation (name : String)
  /-- The attribute is not on the whitelist of the type. -/
  | unknownAttribute (typeName field : String)
  /-- The value does not fit the selection. -/
  | render (message : String)
  | deadlineExceeded
  /-- Raised by an operation or a repository. -/
  | operation (message : String)
  /-- Raised by a durable store. -/
  | store (message : String)
  /-- Reported by the other side of the wire. -/
  | remote (kind : FailureKind) (message : String)
  | config (message : String)
  | json (message : String)
  | io (message : String)
deriving DecidableEq, Inhabited

namespace Failure

def message : Failure → String
  | .parse message rest => "Parse error: " ++ message ++ " at '" ++ rest ++ "'"
  | .cacheMiss fingerprint => "Persisted query not found: " ++ fingerprint
  | .unauthorized action subject => "Not authorized to " ++ action.name ++ " " ++ subject
  | .unknownOperation name => "Unknown operation: '" ++ name ++ "'"
  | .unknownAttribute typeName field => "Unknown attribute '" ++ field ++ "' on " ++ typeName
  | .render message => "Render error: " ++ message
  | .deadlineExceeded => "Deadline exceeded"
  | .operation message => "Operation failed: " ++ message
  | .store message => "Store error: " ++ message
  | .remote kind message => kind.code ++ " error: " ++ message
  | .config message => "Configuration error: " ++ message
  | .json message => "JSON error: " ++ message
  | .io message => "IO error: " ++ message

/-- Contained failures spoil only the part of the answer that raised them. -/
def isContained : Failure → Bool
  | .unauthorized .. | .unknownOperation _ | .unknownAttribute .. | .render _ => true
  | _ => false

def kind : Failure → FailureKind
  | .cacheMiss _ => .cacheMiss
  | .unauthorized .. => .unauthorized
  | .parse .. | .unknownOperation _ | .unknownAttribute .. => .badRequest
  | .deadlineExceeded => .timeout
  | .remote kind _ => kind
  | _ => .internal

def status (e : Failure) : Nat := e.kind.status

end Failure

end FieldQuery
