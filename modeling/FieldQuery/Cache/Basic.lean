import FieldQuery.Config.Basic
import FieldQuery.Schema.Compile

/-!
The local tier of the query cache: a bounded map from fingerprints to compiled
selections. It is wiped as a whole when it is full.
-/

namespace FieldQuery

structure CacheConfig where
  capacity : Nat
  ttlSecs : Nat
  keyPrefix : String
deriving DecidableEq

def CacheConfig.ofConfig (config : Config) : CacheConfig :=
  ⟨config.cacheCapacity, config.durableTtlSecs, config.cacheKeyPrefix⟩

/-- Local entries, and how often look-ups hit and missed and the tier was
reset. -/
structure Cache where
  config : CacheConfig
  entries : Fields Selection
  hits : Nat
  misses : Nat
  resets : Nat

namespace Cache

def ofConfig (config : CacheConfig) : Cache := ⟨config, [], 0, 0, 0⟩

/-- Key of a fingerprint in the durable tier. -/
def durableKey (c : Cache) (fingerprint : String) : String := c.config.keyPrefix ++ fingerprint

def lookup? (c : Cache) (fingerprint : String) : Option Selection :=
  Fields.get? c.entries fingerprint

def countHit (c : Cache) : Cache := { c with hits := c.hits + 1 }

def countMiss (c : Cache) : Cache := { c with misses := c.misses + 1 }

/-- Inserts an entry. A full tier is wiped before it takes a new fingerprint;
there is room for at least one. -/
def insert (c : Cache) (fingerprint : String) (s : Selection) : Cache :=
  let full := !Fields.has c.entries fingerprint && max c.config.capacity 1 ≤ c.entries.length
  let c := if full then { c with entries := [], resets := c.resets + 1 } else c
  { c with entries := Fields.put c.entries fingerprint s }

/-- Takes over a tree read from the durable tier, unless an entry has come in
meanwhile, which then counts. -/
def promote (c : Cache) (fingerprint : String) (found : Selection) : Selection × Cache :=
  match c.lookup? fingerprint with
  | some current => (current, c.countHit)
  | none => (found, (c.insert fingerprint found).countHit)

def clear (c : Cache) : Cache := { c with entries := [] }

def hundred : Double := .ofNat 100

/-- Hits among all look-ups, in percent. -/
def hitRate (c : Cache) : Double :=
  if c.hits + c.misses = 0 then .zero false
  else ((Double.ofNat c.hits).div (.ofNat (c.hits + c.misses))).mul hundred

end Cache

end FieldQuery
