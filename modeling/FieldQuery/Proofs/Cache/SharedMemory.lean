import FieldQuery.Proofs.Cache.Sharing
import Mathlib.Logic.Function.Basic

/-!
Caches in memory beside one store. Whatever lifetimes its entries have, the
store keeps its keys apart.
-/

namespace FieldQuery

namespace MemoryStore

/-- An entry that has not expired. -/
def live : Option (String × Nat) → Option (String × Nat)
  | some (text, ttlSecs + 1) => some (text, ttlSecs + 1)
  | _ => none

/-- A read gives the text of an entry that is alive, and drops any other. -/
theorem get_eq (m : MemoryStore) (key : String) :
    m.get key = ((live (Fields.get? m.entries key)).map Prod.fst,
      if Fields.get? m.entries key = live (Fields.get? m.entries key) then m
      else ⟨Fields.erase m.entries key⟩) := by
  unfold get
  cases Fields.get? m.entries key with
  | none => rfl
  | some found =>
      obtain ⟨text, _ | ttlSecs⟩ := found
      · rfl
      · simp [live]

section

variable {m : MemoryStore} {key other : String}

theorem nodup_get (h : (Fields.names m.entries).Nodup) :
    (Fields.names (m.get key).2.entries).Nodup := by
  rw [get_eq]
  dsimp only
  split
  · exact h
  · exact Fields.nodup_erase h key

theorem get?_get_self (h : (Fields.names m.entries).Nodup) :
    Fields.get? (m.get key).2.entries key = live (Fields.get? m.entries key) := by
  rw [get_eq]
  dsimp only
  split
  next hlive => exact hlive
  next hexpired =>
    rw [Fields.get?_erase_self h]
    cases hfound : Fields.get? m.entries key with
    | none => rfl
    | some found =>
        obtain ⟨text, _ | ttlSecs⟩ := found
        · rfl
        · simp [hfound, live] at hexpired

theorem get?_get_of_ne (hother : other ≠ key) :
    Fields.get? (m.get key).2.entries other = Fields.get? m.entries other := by
  rw [get_eq]
  dsimp only
  split
  · rfl
  · exact Fields.get?_erase_of_ne _ hother

end

end MemoryStore

/-- The caches by name, and the store that they share. -/
structure SharedMemory (ι : Type) where
  caches : ι → Cache
  memory : MemoryStore

namespace SharedMemory

variable {ι : Type}

def store : DurableStore (SharedMemory ι) where
  get key := ExceptT.mk fun s =>
    (.ok (s.memory.get key).1, { s with memory := (s.memory.get key).2 })
  set key text ttlSecs := ExceptT.mk fun s =>
    (.ok (), { s with memory := s.memory.set key text ttlSecs })

def host [DecidableEq ι] (i : ι) : CacheHost (SharedMemory ι) where
  read s := s.caches i
  write c s := { s with caches := Function.update s.caches i c }
  durable := some store

/-- What the store has under a key, with its lifetime. -/
def entry (s : SharedMemory ι) (key : String) : Option (String × Nat) :=
  Fields.get? s.memory.entries key

/-- The caches have their prefixes, and the store no key twice. -/
structure Valid (prefixes : ι → String) (s : SharedMemory ι) : Prop where
  keyPrefix_eq (i : ι) : (s.caches i).config.keyPrefix = prefixes i
  nodup : (Fields.names s.memory.entries).Nodup

theorem exec_get (s : SharedMemory ι) (key : String) :
    (store.get key).exec s =
      (.ok (s.memory.get key).1, { s with memory := (s.memory.get key).2 }) :=
  rfl

theorem sharing [DecidableEq ι] (prefixes : ι → String) :
    CacheHost.Sharing (host (ι := ι)) store prefixes entry (Valid prefixes) where
  durable_eq _ := rfl
  keyPrefix_eq i _ hs := hs.keyPrefix_eq i
  valid_write {i s c} hs hc := by
    refine ⟨fun j => ?_, hs.nodup⟩
    change (Function.update s.caches i c j).config.keyPrefix = prefixes j
    by_cases hji : j = i
    · subst hji
      rw [Function.update_self, hc]
      exact hs.keyPrefix_eq j
    · rw [Function.update_of_ne hji]
      exact hs.keyPrefix_eq j
  read_write _ _ := Function.update_self _ _ _
  read_write_of_ne hji _ _ := Function.update_of_ne hji _ _
  entry_write _ _ _ := rfl
  valid_get _ hs := ⟨hs.keyPrefix_eq, MemoryStore.nodup_get hs.nodup⟩
  read_get _ _ _ _ := rfl
  get_eq {s t key} _ _ hentry := by
    change Fields.get? s.memory.entries key = Fields.get? t.memory.entries key at hentry
    simp only [exec_get, MemoryStore.get_eq, hentry]
  entry_get {s t key} hs ht hentry := by
    change Fields.get? s.memory.entries key = Fields.get? t.memory.entries key at hentry
    change Fields.get? (s.memory.get key).2.entries key =
      Fields.get? (t.memory.get key).2.entries key
    rw [MemoryStore.get?_get_self hs.nodup, MemoryStore.get?_get_self ht.nodup, hentry]
  entry_get_of_ne _ hother := MemoryStore.get?_get_of_ne hother
  valid_set _ _ _ hs := ⟨hs.keyPrefix_eq, Fields.nodup_put hs.nodup _ _⟩
  read_set _ _ _ _ _ _ := rfl
  entry_set _ _ _ _ _ := by
    change Fields.get? (Fields.put _ _ _) _ = Fields.get? (Fields.put _ _ _) _
    rw [Fields.get?_put, Fields.get?_put, if_pos rfl, if_pos rfl]
  entry_set_of_ne _ _ _ hother := by
    change Fields.get? (Fields.put _ _ _) _ = _
    rw [Fields.get?_put, if_neg (Ne.symm hother)]
    rfl

/-- New caches with these prefixes, and an empty store. -/
def fresh (prefixes : ι → String) : SharedMemory ι :=
  ⟨fun i => .ofConfig ⟨1, 60, prefixes i⟩, .empty⟩

theorem valid_fresh (prefixes : ι → String) : (fresh prefixes).Valid prefixes :=
  ⟨fun _ => rfl, List.nodup_nil⟩

end SharedMemory

end FieldQuery
