import FieldQuery.Entity.Descriptor

/-!
Configuration of a service.
-/

namespace FieldQuery

structure Config where
  /-- Entries that the local tier of the cache holds before it resets. -/
  cacheCapacity : Nat
  /-- Lifetime of an entry in the durable tier. -/
  durableTtlSecs : Nat
  /-- What precedes the fingerprint in keys of the durable tier. -/
  cacheKeyPrefix : String
  /-- Whether failures inside an answer are raised. -/
  strict : Bool
  /-- Page size of listings that do not say. -/
  defaultPageSize : Nat
deriving DecidableEq

namespace Config

/-- Durable entries live for a month of 31 days. -/
def default : Config :=
  { cacheCapacity := 1000
    durableTtlSecs := 31 * 24 * 60 * 60
    cacheKeyPrefix := "apiql-cache-"
    strict := false
    defaultPageSize := 10 }

instance : Inhabited Config := ⟨default⟩

def mode (config : Config) : Mode := if config.strict then .strict else .lenient

end Config

end FieldQuery
