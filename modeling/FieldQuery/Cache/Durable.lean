import FieldQuery.Fields
import FieldQuery.Run

/-!
The durable tier of the query cache: a store of texts under keys, each with a
lifetime. It may fail.
-/

namespace FieldQuery

structure DurableStore (σ : Type) where
  get : String → Run σ (Option String)
  set : String → String → Nat → Run σ Unit

/-- Texts in memory, with their lifetimes in seconds. The clock stands still,
so only entries without a lifetime expire. -/
structure MemoryStore where
  entries : Fields (String × Nat)

namespace MemoryStore

def empty : MemoryStore := ⟨[]⟩

/-- Reads an entry. An expired one is removed when it is read. -/
def get (m : MemoryStore) (key : String) : Option String × MemoryStore :=
  match Fields.get? m.entries key with
  | some (text, _ + 1) => (some text, m)
  | some (_, 0) => (none, ⟨Fields.erase m.entries key⟩)
  | none => (none, m)

def set (m : MemoryStore) (key text : String) (ttlSecs : Nat) : MemoryStore :=
  ⟨Fields.put m.entries key (text, ttlSecs)⟩

end MemoryStore

end FieldQuery
