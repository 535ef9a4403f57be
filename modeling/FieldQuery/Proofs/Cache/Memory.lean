import FieldQuery.Proofs.Cache.Tiers

/-!
A host in memory: a cache beside a store whose calls fail as planned. It obeys
the laws of a fallible tier, and those of a reliable one when no failure is
left.
-/

namespace FieldQuery

/-- `faults` tells which of the next calls of the store fail. When it is used
up, none does. -/
structure MemoryHost where
  cache : Cache
  memory : MemoryStore
  faults : List Bool

namespace MemoryHost

/-- A new cache with room for one entry, and an empty store. -/
def fresh (faults : List Bool) : MemoryHost := ⟨.ofConfig ⟨1, 60, "query-"⟩, .empty, faults⟩

def unreachable : Failure := .store "unreachable"

/-- Carries a call of the store out, unless it is to fail. -/
def call {α : Type} (f : MemoryStore → α × MemoryStore) : Run MemoryHost α := ExceptT.mk fun s =>
  if s.faults.headD false then (.error unreachable, { s with faults := s.faults.tail })
  else (.ok (f s.memory).1, ⟨s.cache, (f s.memory).2, s.faults.tail⟩)

def store : DurableStore MemoryHost where
  get key := call fun memory => memory.get key
  set key text ttlSecs := call fun memory => ((), memory.set key text ttlSecs)

def host : CacheHost MemoryHost where
  read := cache
  write cache s := { s with cache }
  durable := some store

/-- The host without its store. -/
def localHost : CacheHost MemoryHost := { host with durable := none }

/-- Nothing in the store is about to expire. -/
def Lasting (s : MemoryHost) : Prop :=
  0 < s.cache.config.ttlSecs ∧ ∀ entry ∈ s.memory.entries, 0 < entry.2.2

/-- What the store holds under a key. -/
def contents (s : MemoryHost) (key : String) : Option String :=
  (Fields.get? s.memory.entries key).map Prod.fst

variable {s : MemoryHost}

theorem lasting_fresh (faults : List Bool) : (fresh faults).Lasting :=
  ⟨Nat.zero_lt_succ 59, by simp [fresh, MemoryStore.empty]⟩

/-- The store of a new cache holds nothing. -/
theorem contents_fresh_ne (faults : List Bool) (key text : String) :
    (fresh faults).contents key ≠ some text :=
  nofun

theorem Lasting.get (h : s.Lasting) (key : String) :
    s.memory.get key = (s.contents key, s.memory) := by
  unfold MemoryStore.get contents
  cases hget : Fields.get? s.memory.entries key with
  | none => rfl
  | some found =>
      obtain ⟨text, ttlSecs⟩ := found
      have hlives : 0 < ttlSecs := h.2 _ (Fields.mem_of_get? hget)
      obtain ⟨n, rfl⟩ := Nat.exists_eq_add_of_lt hlives
      rfl

theorem Lasting.set (h : s.Lasting) (key text : String) (faults : List Bool) :
    Lasting ⟨s.cache, s.memory.set key text s.cache.config.ttlSecs, faults⟩ := by
  refine ⟨h.1, fun entry hentry => ?_⟩
  rcases Fields.mem_put hentry with hentry | hvalue
  · exact h.2 entry hentry
  · rw [hvalue]
    exact h.1

theorem contents_set (s : MemoryHost) (key text other : String) (ttlSecs : Nat)
    (faults : List Bool) :
    contents ⟨s.cache, s.memory.set key text ttlSecs, faults⟩ other =
      if other = key then some text else s.contents other := by
  unfold contents MemoryStore.set
  rw [Fields.get?_put]
  by_cases hother : other = key
  · simp [hother]
  · simp [hother, Ne.symm hother]

theorem exec_call {α : Type} (f : MemoryStore → α × MemoryStore) (s : MemoryHost) :
    (call f).exec s =
      if s.faults.headD false then (.error unreachable, { s with faults := s.faults.tail })
      else (.ok (f s.memory).1, ⟨s.cache, (f s.memory).2, s.faults.tail⟩) :=
  rfl

theorem exec_get (h : s.Lasting) (key : String) :
    (store.get key).exec s = (if s.faults.headD false then .error unreachable else
      .ok (s.contents key), { s with faults := s.faults.tail }) := by
  change (call fun memory => memory.get key).exec s = _
  simp only [exec_call, h.get]
  split <;> rfl

theorem exec_set (s : MemoryHost) (key text : String) (ttlSecs : Nat) :
    (store.set key text ttlSecs).exec s =
      if s.faults.headD false then (.error unreachable, { s with faults := s.faults.tail })
      else (.ok (), ⟨s.cache, s.memory.set key text ttlSecs, s.faults.tail⟩) :=
  rfl

theorem lawful : host.Lawful Lasting where
  read_write _ _ := rfl
  valid_write {s c} hs hconfig := by
    refine ⟨?_, hs.2⟩
    change 0 < c.config.ttlSecs
    rw [hconfig]
    exact hs.1
  read_get key hs hdurable := by
    obtain rfl := Option.some.inj hdurable
    rw [exec_get hs]
    rfl
  valid_get key hs hdurable := by
    obtain rfl := Option.some.inj hdurable
    rw [exec_get hs]
    exact hs
  read_set key text hs hdurable := by
    obtain rfl := Option.some.inj hdurable
    rw [exec_set]
    split <;> rfl
  valid_set key text hs hdurable := by
    obtain rfl := Option.some.inj hdurable
    rw [exec_set]
    split
    · exact hs
    · exact hs.set key text _

theorem fallible : host.Fallible Lasting (CacheHost.Holding contents) where
  toLawful := lawful
  holds_write _ _ := id
  holds_of_get hs hdurable hget := by
    obtain rfl := Option.some.inj hdurable
    rw [exec_get hs] at hget
    split at hget
    · cases hget
    · exact Except.ok.inj hget
  holds_get hs hdurable hholds := by
    obtain rfl := Option.some.inj hdurable
    rwa [exec_get hs] at hholds
  holds_set hs hdurable hholds := by
    obtain rfl := Option.some.inj hdurable
    rw [exec_set] at hholds
    split at hholds
    · exact .inl hholds
    · rw [CacheHost.Holding, contents_set] at hholds
      split at hholds
      next hkey => exact .inr ⟨hkey, (Option.some.inj hholds).symm⟩
      next => exact .inl hholds
  set_ok hs hdurable hok hholds := by
    obtain rfl := Option.some.inj hdurable
    rw [exec_set] at hok hholds
    split at hok
    · cases hok
    · rw [if_neg ‹_›, CacheHost.Holding, contents_set, if_pos rfl] at hholds
      exact (Option.some.inj hholds).symm
  set_error hs hdurable herror hholds := by
    obtain rfl := Option.some.inj hdurable
    rw [exec_set] at herror hholds
    split at herror
    · rwa [if_pos ‹_›] at hholds
    · cases herror

/-- With no failure left the store is reliable. -/
theorem reliable : host.Reliable (fun s => s.Lasting ∧ s.faults = []) contents where
  read_write hs := lawful.read_write hs.1
  valid_write hs hconfig := ⟨lawful.valid_write hs.1 hconfig, hs.2⟩
  read_get key hs := lawful.read_get key hs.1
  valid_get key hs hdurable := by
    refine ⟨lawful.valid_get key hs.1 hdurable, ?_⟩
    obtain rfl := Option.some.inj hdurable
    rw [exec_get hs.1, hs.2]
    rfl
  read_set key text hs := lawful.read_set key text hs.1
  valid_set key text hs hdurable := by
    refine ⟨lawful.valid_set key text hs.1 hdurable, ?_⟩
    obtain rfl := Option.some.inj hdurable
    rw [exec_set, hs.2]
    rfl
  isSome_durable := rfl
  contents_write _ _ := rfl
  get_eq key hs hdurable := by
    obtain rfl := Option.some.inj hdurable
    rw [exec_get hs.1, hs.2]
    rfl
  contents_get key hs hdurable := by
    obtain rfl := Option.some.inj hdurable
    rw [exec_get hs.1]
    rfl
  set_eq key text hs hdurable := by
    obtain rfl := Option.some.inj hdurable
    rw [exec_set, hs.2]
    rfl
  contents_set key text other hs hdurable := by
    obtain rfl := Option.some.inj hdurable
    rw [exec_set, hs.2]
    exact contents_set _ key text other _ _

theorem local_lawful : localHost.Lawful Lasting where
  read_write := lawful.read_write
  valid_write := lawful.valid_write
  read_get _ _ hdurable := by cases hdurable
  valid_get _ _ hdurable := by cases hdurable
  read_set _ _ _ hdurable := by cases hdurable
  valid_set _ _ _ hdurable := by cases hdurable

end MemoryHost

/-- Two schemas with different trees, which both read back as they are. -/
theorem compile_ping : compile "ping" = .ok [.ofName "ping"] := by with_unfolding_all rfl

theorem compile_pong : compile "pong" = .ok [.ofName "pong"] := by with_unfolding_all rfl

/-- Key and text of the only member of the only item of a raw document. -/
def soleMember? : RawJson → Option (String × String)
  | .array [.object [(some key, .string (some text))]] => some (key, text)
  | _ => none

theorem eq_of_soleMember? {v : RawJson} {key text : String} (h : soleMember? v = some (key, text)) :
    v = .array [.object [(some key, .string (some text))]] := by
  unfold soleMember? at h
  split at h
  next =>
    cases h
    rfl
  next => cases h

/-- A document of one call with nothing but a name reads as that call. -/
theorem decode_of_soleMember? {text name : String}
    (h : (RawJson.parse? text.toList).bind soleMember? = some ("name", name)) :
    Selection.decode? text = some [.ofName name] := by
  obtain ⟨v, hparse, hv⟩ := Option.bind_eq_some_iff.mp h
  rw [Selection.decode?, hparse, eq_of_soleMember? hv]
  simp [RawJson.nestingLimit, Selection.callsOfRaw?, Selection.itemsOfRaw?, Selection.callOfRaw?,
    Selection.membersOfRaw?, Selection.Draft.empty, RawJson.asString?, Selection.Draft.call?,
    Call.ofName]

theorem decode_ping :
    Selection.decode? (Selection.encode [.ofName "ping"]) = some [.ofName "ping"] := by
  have htext : Selection.encode [.ofName "ping"] = "[\x7b\"name\":\"ping\"\x7d]" := by
    with_unfolding_all rfl
  rw [htext]
  exact decode_of_soleMember? (by decide +kernel)

theorem decode_pong :
    Selection.decode? (Selection.encode [.ofName "pong"]) = some [.ofName "pong"] := by
  have htext : Selection.encode [.ofName "pong"] = "[\x7b\"name\":\"pong\"\x7d]" := by
    with_unfolding_all rfl
  rw [htext]
  exact decode_of_soleMember? (by decide +kernel)

end FieldQuery
