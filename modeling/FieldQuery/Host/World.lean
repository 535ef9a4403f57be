import FieldQuery.Cache.Task
import FieldQuery.Host.Record
import FieldQuery.Service.Client

/-!
Worlds: the state of a host in memory. It holds tables of records, caches,
durable stores that can be made to fail, the far side of a wire, and a log of
what happened.
-/

namespace FieldQuery.Host

/-- What leaves a trace in the log. -/
inductive Event where
  | operation (name : String) (args : List (Value Record)) (hints : Hints)
  | list (range : Option (Nat × Nat)) (hints : Hints)
  | count
  | find (id : Value Record) (hints : Hints)
  | create (params : Fields (Value Record))
  | update (id : Value Record) (params : Fields (Value Record))
  | destroy (id : Value Record)
  | reload (typeName : String) (id : Value Record) (hints : Hints)
  | storeGet (key : String) (result : Option (Option String))
  | storeSet (key text : String) (ttlSecs : Nat) (failing : Bool)

/-- A store of some cache that runs at the beginning of the next read of a
durable store. -/
structure Intrusion where
  cache : Nat
  fingerprint : String
  schema : String

/-- A durable store in memory whose reads and writes can be made to fail. -/
structure StoreState where
  memory : MemoryStore
  failGet : Bool
  failSet : Bool
  intrusion : Option Intrusion

def StoreState.empty : StoreState := ⟨.empty, false, false, none⟩

/-- A cache and the place of its durable store, if it has one. -/
structure CacheState where
  cache : Cache
  store : Option Nat

/-- What a server answers, or how the transport to it fails. -/
abbrev Reply := Except Failure Response

/-- `replies` are what a server has still to answer. The log, the requests that
were posted and the refusals that were heard have the latest first. -/
structure World where
  tables : List (List (Value Record))
  caches : List CacheState
  stores : List StoreState
  replies : List Reply
  posted : List Request
  heard : List Failure
  log : List Event

namespace World

def empty : World := ⟨[], [], [], [], [], [], []⟩

def record (e : Event) : StateM World Unit := modify fun w => { w with log := e :: w.log }

/-- Events since the log was last taken, in order. -/
def takeLog : StateM World (List Event) := fun w => (w.log.reverse, { w with log := [] })

def storeAt (w : World) (place : Nat) : StoreState := (w.stores[place]?).getD .empty

def editStore (place : Nat) (edit : StoreState → StoreState) : StateM World Unit :=
  modify fun w => { w with stores := w.stores.modify place edit }

/-- Reads a store without a trace. -/
def peek (place : Nat) (key : String) : StateM World (Option String) := do
  let (text, memory) := ((← get).storeAt place).memory.get key
  editStore place fun s => { s with memory }
  return text

def unreachable : Failure := .store "unreachable"

def readStore (place : Nat) (key : String) : Run World (Option String) := ExceptT.mk do
  if ((← get).storeAt place).failGet then
    record (.storeGet key none)
    return .error unreachable
  else
    let text ← peek place key
    record (.storeGet key (some text))
    return .ok text

def writeStore (place : Nat) (key text : String) (ttlSecs : Nat) : Run World Unit :=
  ExceptT.mk do
    let failing := ((← get).storeAt place).failSet
    record (.storeSet key text ttlSecs failing)
    if failing then return .error unreachable
    else
      editStore place fun s => { s with memory := s.memory.set key text ttlSecs }
      return .ok ()

def cacheAt (w : World) (place : Nat) : CacheState :=
  (w.caches[place]?).getD ⟨.ofConfig (.ofConfig .default), none⟩

/-- A cache of the world, over some view of its durable store. -/
def hostOf (place : Nat) (durable : Option (DurableStore World)) : CacheHost World :=
  { read := fun w => (w.cacheAt place).cache
    write := fun cache w =>
      { w with caches := w.caches.modify place fun c => { c with cache } }
    durable }

/-- Lets the intrusion that a store waits for happen; its failure is nobody's
business. It only writes, so it waits for no other. -/
def intrude (place : Nat) : StateM World Unit := do
  match ((← get).storeAt place).intrusion with
  | none => return
  | some i =>
      editStore place fun s => { s with intrusion := none }
      let durable := ((← get).cacheAt i.cache).store.map fun store =>
        { get := readStore store, set := writeStore store }
      let _ ← ((hostOf i.cache durable).store i.fingerprint i.schema).run

def durableStore (place : Nat) : DurableStore World :=
  { get := fun key => ExceptT.mk do
      intrude place
      (readStore place key).run
    set := writeStore place }

/-- A cache of the world with its durable store. -/
def cacheHost (w : World) (place : Nat) : CacheHost World :=
  hostOf place ((w.cacheAt place).store.map durableStore)

/-- A transport that notes what it posts. -/
def noting (transport : Transport World) : Transport World := fun request => do
  modify fun w => { w with posted := request :: w.posted }
  transport request

/-- Answers with the replies of the world in order. -/
def replyTransport : Transport World := fun _ => ExceptT.mk do
  match (← get).replies with
  | [] => return .error (.operation "transport exhausted")
  | reply :: rest =>
      modify fun w => { w with replies := rest }
      return reply

def hear (e : Failure) : StateM World Unit := modify fun w => { w with heard := e :: w.heard }

/-- Requests posted and refusals heard since they were last taken, in order. -/
def takeExchange : StateM World (List Request × List Failure) := fun w =>
  ((w.posted.reverse, w.heard.reverse), { w with posted := [], heard := [] })

end World

end FieldQuery.Host
