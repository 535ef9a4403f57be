import FieldQuery.Failure
import FieldQuery.Fingerprint
import FieldQuery.Json.Read
import FieldQuery.Json.Text

/-!
Requests and responses, and their JSON on the wire. A request carries the
fingerprint of a schema, perhaps the schema itself, and named parameters as
further members of the same object.
-/

namespace FieldQuery

structure Request where
  fingerprint : String
  schema : Option String
  params : Fields Json

namespace Request

def fingerprintKey : String := "apiql"

def schemaKey : String := "apiql_request"

/-- A request for a schema by its fingerprint alone. -/
def ofSchema (schema : String) : Request := ⟨FieldQuery.fingerprint schema, none, []⟩

def withSchema (r : Request) (schema : String) : Request := { r with schema := some schema }

def withParam (r : Request) (name : String) (v : Json) : Request :=
  { r with params := Fields.put r.params name v }

/-- Members of the wire form, in order. -/
def members (r : Request) : Fields Json :=
  let schema := match r.schema with
    | some schema => [(schemaKey, Json.string schema)]
    | none => []
  (fingerprintKey, .string r.fingerprint) :: schema ++ r.params

def toJson (r : Request) : Json := .object r.members

/-- A fingerprint is a text, or the hash itself as a signed integer. -/
def fingerprintOf? : Json → Option String
  | .string s => some s
  | .number (.int n) => if n.val < Word.signedEnd then some (toString n.val) else none
  | _ => none

def schemaOf? : Json → Option (Option String)
  | .null => some none
  | .string s => some (some s)
  | _ => none

/-- Values of all members under a key. -/
def valuesOf (key : String) (members : Fields Json) : List Json :=
  (members.filter (·.1 == key)).map Prod.snd

def isParam (member : String × Json) : Bool :=
  member.1 != fingerprintKey && member.1 != schemaKey

/-- Reads the members of a request. The fingerprint stands there once, the
schema at most once, and every other member is a parameter. -/
def ofMembers? (members : Fields Json) : Option Request :=
  match valuesOf fingerprintKey members, valuesOf schemaKey members with
  | [token], [] =>
      (fingerprintOf? token).map fun fingerprint =>
        ⟨fingerprint, none, Fields.ofList (members.filter isParam)⟩
  | [token], [schema] =>
      match fingerprintOf? token, schemaOf? schema with
      | some fingerprint, some schema =>
          some ⟨fingerprint, schema, Fields.ofList (members.filter isParam)⟩
      | _, _ => none
  | _, _ => none

/-- Reads a request from text, which must hold an object. -/
def parse? (text : String) : Option Request :=
  match RawJson.parse? text.toList with
  | some (.object members) =>
      (RawJson.membersToJson? (RawJson.nestingLimit - 1) members).bind ofMembers?
  | _ => none

end Request

/-- A status as in HTTP, and a JSON body. -/
structure Response where
  status : Nat
  body : Json

namespace Response

def ofResult (members : Fields Json) : Response := ⟨200, .object members⟩

def ofFailure (e : Failure) : Response :=
  ⟨e.status, .object [("errors", .array [.string e.message]), ("code", .string e.kind.code)]⟩

def ofExcept : Except Failure (Fields Json) → Response
  | .ok members => ofResult members
  | .error e => ofFailure e

def toJson (r : Response) : Json :=
  .object [("status", ((JsonNumber.ofInt? r.status).map Json.number).getD .null), ("body", r.body)]

def isSuccess (r : Response) : Bool := 200 ≤ r.status && r.status < 300

/-- Kind that an error response reports; without a code it is internal. -/
def reportedKind (r : Response) : FailureKind :=
  match (r.body.member? "code").bind Json.asString? with
  | some code => .ofCode code
  | none => .internal

/-- First message of an error response, or its status. -/
def reportedMessage (r : Response) : String :=
  match ((r.body.member? "errors").bind Json.asArray?).bind List.head? with
  | some (.string message) => message
  | _ => "status " ++ toString r.status

/-- The answer, or the failure that an error response stands for. -/
def result (r : Response) : Except Failure (Fields Json) :=
  if r.isSuccess then
    match r.body with
    | .object members => .ok members
    | other => .error (.remote .internal ("expected an object body, got " ++ other.text))
  else .error (.remote r.reportedKind r.reportedMessage)

end Response

end FieldQuery
