import FieldQuery.Cache.Basic
import FieldQuery.Cache.Durable
import FieldQuery.Selection.Json

/-!
Operations on a cache with a durable tier, as tasks. A task advances from one
point where it may have to wait to the next, so tasks may be interleaved; run
alone, a task goes straight through. Whoever changes the local tier holds the
writer's lock, and a store holds it until its durable write is over.
-/

namespace FieldQuery

/-- A cache kept in the state of a host, and its durable tier if it has one. -/
structure CacheHost (σ : Type) where
  read : σ → Cache
  write : Cache → σ → σ
  durable : Option (DurableStore σ)

namespace CacheHost

variable {σ α : Type}

/-- Changes the cache and gives a result. -/
def change (host : CacheHost σ) (f : Cache → α × Cache) : StateM σ α := fun state =>
  let (result, c) := f (host.read state)
  (result, host.write c state)

end CacheHost

inductive CacheTask where
  /-- About to look into the local tier. -/
  | resolve (fingerprint : String)
  /-- Not found locally; about to read the durable tier. -/
  | reading (fingerprint : String)
  /-- Found in the durable tier; waiting for the lock. -/
  | promoting (fingerprint : String) (found : Selection)
  /-- Waiting for the lock. -/
  | store (fingerprint schema : String)
  /-- Holding the lock; about to write the durable tier. -/
  | writing (fingerprint : String) (s : Selection)
  /-- Waiting for the lock. -/
  | clear
  | done (result : Except Failure (Option Selection))

namespace CacheTask

variable {σ : Type}

/-- Whether the next step has to wait until nobody holds the lock. -/
def awaitsLock : CacheTask → Bool
  | .promoting .. | .store .. | .clear => true
  | _ => false

def holdsLock : CacheTask → Bool
  | .writing .. => true
  | _ => false

def miss (host : CacheHost σ) (fingerprint : String) : StateM σ CacheTask :=
  host.change fun c => (.done (.error (.cacheMiss fingerprint)), c.countMiss)

/-- Goes on to the next point of waiting. Failures of the durable tier are
passed over, and an entry that does not decode counts as missing. -/
def advance (host : CacheHost σ) : CacheTask → StateM σ CacheTask
  | .resolve fingerprint => do
      let c := host.read (← get)
      match c.lookup? fingerprint with
      | some s => host.change fun c => (.done (.ok (some s)), c.countHit)
      | none =>
          match host.durable with
          | some _ => return .reading fingerprint
          | none => miss host fingerprint
  | .reading fingerprint => do
      match host.durable with
      | none => miss host fingerprint
      | some durable =>
          let key := (host.read (← get)).durableKey fingerprint
          match ← (durable.get key).run with
          | .ok (some text) =>
              match Selection.decode? text with
              | some s => return .promoting fingerprint s
              | none => miss host fingerprint
          | _ => miss host fingerprint
  | .promoting fingerprint found =>
      host.change fun c =>
        let (s, c) := c.promote fingerprint found
        (.done (.ok (some s)), c)
  | .store fingerprint schema =>
      match compile schema with
      | .error e => return .done (.error e)
      | .ok s =>
          host.change fun c =>
            let next : CacheTask := match host.durable with
              | some _ => .writing fingerprint s
              | none => .done (.ok (some s))
            (next, c.insert fingerprint s)
  | .writing fingerprint s => do
      match host.durable with
      | none => return .done (.ok (some s))
      | some durable =>
          let c := host.read (← get)
          let _ ← (durable.set (c.durableKey fingerprint) (Selection.encode s)
            c.config.ttlSecs).run
          return .done (.ok (some s))
  | .clear => host.change fun c => (.done (.ok none), c.clear)
  | .done result => return .done result

/-- Advances a number of times. -/
def advanceTimes (host : CacheHost σ) : Nat → CacheTask → StateM σ CacheTask
  | 0, task => return task
  | n + 1, task => do advanceTimes host n (← task.advance host)

/-- Runs a task alone to its end, which takes at most three steps. -/
def run (host : CacheHost σ) (task : CacheTask) : Run σ (Option Selection) :=
  ExceptT.mk do
    match ← advanceTimes host 3 task with
    | .done result => return result
    | _ => return .ok none

end CacheTask

namespace CacheHost

variable {σ : Type}

/-- Compiles a schema and writes it to both tiers. -/
def store (host : CacheHost σ) (fingerprint schema : String) : Run σ Selection := do
  return ((← CacheTask.run host (.store fingerprint schema)).getD [])

/-- Selection stored under a fingerprint in either tier. -/
def resolve (host : CacheHost σ) (fingerprint : String) : Run σ Selection := do
  return ((← CacheTask.run host (.resolve fingerprint)).getD [])

/-- Wipes the local tier and leaves the durable one. -/
def clear (host : CacheHost σ) : Run σ Unit := do
  let _ ← CacheTask.run host .clear

end CacheHost

end FieldQuery
