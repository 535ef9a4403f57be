import FieldQuery.Config.Basic
import FieldQuery.Failure
import FieldQuery.Toml.Read

/-!
Configuration files. Fields that a file does not mention have their standard
values, and entries that are no fields are ignored.
-/

namespace FieldQuery

namespace Toml

def asNat? : Toml → Option Nat
  | .int n => if 0 ≤ n.toInt then some n.toInt.toNat else none
  | _ => none

def asBool? : Toml → Option Bool
  | .bool b => some b
  | _ => none

def asString? : Toml → Option String
  | .string s => some s
  | _ => none

end Toml

namespace Config

/-- A field of a document: its standard value if it is missing, and nothing if
it has the wrong type. -/
def field? {α : Type} (as? : Toml → Option α) (doc : Fields Toml) (key : String)
    (standard : α) : Option α :=
  match Fields.get? doc key with
  | none => some standard
  | some v => as? v

def ofToml? (doc : Fields Toml) : Option Config := do
  let cacheCapacity ← field? Toml.asNat? doc "cache_capacity" default.cacheCapacity
  let durableTtlSecs ← field? Toml.asNat? doc "durable_ttl_secs" default.durableTtlSecs
  let cacheKeyPrefix ← field? Toml.asString? doc "cache_key_prefix" default.cacheKeyPrefix
  let strict ← field? Toml.asBool? doc "strict" default.strict
  let defaultPageSize ← field? Toml.asNat? doc "default_page_size" default.defaultPageSize
  return { cacheCapacity, durableTtlSecs, cacheKeyPrefix, strict, defaultPageSize }

/-- The configuration that a TOML text holds. -/
def parse (text : String) : Except Failure Config :=
  match Toml.parse? text with
  | none => .error (.config "malformed document")
  | some doc =>
      match ofToml? doc with
      | none => .error (.config "field of the wrong type")
      | some config => .ok config

/-- The configuration in a file, which must exist. -/
def ofFile : Option String → Except Failure Config
  | none => .error (.io "file not found")
  | some text => parse text

/-- The configuration in a file, and the standard one without a file. -/
def ofOptionalFile : Option String → Except Failure Config
  | none => .ok default
  | some text => parse text

end Config

end FieldQuery
