import FieldQuery.Cache.Task
import FieldQuery.Proofs.Fields

/-!
The two tiers of a cache. The local tier forgets everything at once, so what
it answers is what was put into it. Of a host and its durable tier nothing is
known but laws: a tier may be merely honest, or may fail without mixing up old
texts with new ones, or may be reliable.
-/

namespace FieldQuery

/-- Number of entries that the local tier has room for. -/
def CacheConfig.room (config : CacheConfig) : Nat := max config.capacity 1

namespace Cache

variable {c : Cache} {fingerprint other : String} {s t : Selection}

@[simp] theorem config_insert (c : Cache) (fingerprint : String) (s : Selection) :
    (c.insert fingerprint s).config = c.config := by
  unfold insert
  dsimp only
  split <;> rfl

@[simp] theorem lookup?_insert_self (c : Cache) (fingerprint : String) (s : Selection) :
    (c.insert fingerprint s).lookup? fingerprint = some s := by
  simp [insert, lookup?, Fields.get?_put]

/-- What is found under another fingerprint after an insertion was there
before; not all that was there needs to be found. -/
theorem lookup?_insert_of_ne (hother : other ≠ fingerprint)
    (h : (c.insert fingerprint s).lookup? other = some t) : c.lookup? other = some t := by
  unfold insert lookup? at h
  dsimp only at h
  rw [Fields.get?_put, if_neg (Ne.symm hother)] at h
  split at h
  · cases h
  · exact h

/-- A full tier is wiped before it grows. -/
theorem length_insert_le (h : c.entries.length ≤ c.config.room) :
    (c.insert fingerprint s).entries.length ≤ c.config.room := by
  have hroom : 1 ≤ c.config.room := Nat.le_max_right _ _
  unfold insert
  dsimp only
  split
  next => exact Nat.le_trans (Fields.length_put_le [] fingerprint s) hroom
  next hfull =>
    cases hhas : Fields.has c.entries fingerprint with
    | true => rwa [Fields.length_put_of_has hhas]
    | false =>
        simp only [hhas, Bool.not_false, Bool.true_and, decide_eq_true_eq, Nat.not_le] at hfull
        exact Nat.le_trans (Fields.length_put_le c.entries fingerprint s) hfull

/-- A cache within its room, all of whose entries are known. -/
structure Within (config : CacheConfig) (known : String → Selection → Prop) (c : Cache) :
    Prop where
  config_eq : c.config = config
  room : c.entries.length ≤ config.room
  known : ∀ fingerprint s, c.lookup? fingerprint = some s → known fingerprint s

namespace Within

variable {config : CacheConfig} {known known' : String → Selection → Prop}

theorem of_empty (hconfig : c.config = config) (hempty : c.entries = []) :
    c.Within config known where
  config_eq := hconfig
  room := by simp [hempty]
  known := by simp [lookup?, hempty, Fields.get?]

theorem countHit (h : c.Within config known) : c.countHit.Within config known :=
  ⟨h.config_eq, h.room, h.known⟩

theorem countMiss (h : c.Within config known) : c.countMiss.Within config known :=
  ⟨h.config_eq, h.room, h.known⟩

theorem clear (h : c.Within config known) : c.clear.Within config known :=
  .of_empty h.config_eq rfl

/-- An insertion may be judged by new knowledge: the old entry under its
fingerprint is gone. -/
theorem insert (h : c.Within config known) (hs : known' fingerprint s)
    (hothers : ∀ other t, other ≠ fingerprint → known other t → known' other t) :
    (c.insert fingerprint s).Within config known' where
  config_eq := (c.config_insert fingerprint s).trans h.config_eq
  room := by
    obtain rfl := h.config_eq
    exact length_insert_le h.room
  known := by
    intro other t ht
    by_cases hother : other = fingerprint
    · subst hother
      rw [lookup?_insert_self] at ht
      exact Option.some.inj ht ▸ hs
    · exact hothers other t hother (h.known other t (lookup?_insert_of_ne hother ht))

/-- Promotion hands out a known tree if the tree to promote is known. -/
theorem promote (h : c.Within config known) (hs : known fingerprint s) :
    known fingerprint (c.promote fingerprint s).1 ∧
      (c.promote fingerprint s).2.Within config known := by
  unfold Cache.promote
  cases hlocal : c.lookup? fingerprint with
  | some current => exact ⟨h.known _ _ hlocal, h.countHit⟩
  | none => exact ⟨hs, (h.insert hs fun _ _ _ => id).countHit⟩

end Within

end Cache

namespace CacheHost

variable {σ : Type}

/-- A host keeps what is written for its cache, and its durable tier leaves the
cache alone. `valid` are the states that the host can be in. -/
structure Lawful (host : CacheHost σ) (valid : σ → Prop) : Prop where
  read_write {s : σ} {c : Cache} : valid s → c.config = (host.read s).config →
    host.read (host.write c s) = c
  valid_write {s : σ} {c : Cache} : valid s → c.config = (host.read s).config →
    valid (host.write c s)
  read_get {s : σ} {durable : DurableStore σ} (key : String) : valid s →
    host.durable = some durable → host.read ((durable.get key).exec s).2 = host.read s
  valid_get {s : σ} {durable : DurableStore σ} (key : String) : valid s →
    host.durable = some durable → valid ((durable.get key).exec s).2
  read_set {s : σ} {durable : DurableStore σ} (key text : String) : valid s →
    host.durable = some durable →
      host.read ((durable.set key text (host.read s).config.ttlSecs).exec s).2 = host.read s
  valid_set {s : σ} {durable : DurableStore σ} (key text : String) : valid s →
    host.durable = some durable →
      valid ((durable.set key text (host.read s).config.ttlSecs).exec s).2

/-- A durable tier that gives only texts it was given for the key. `holds` are
the texts that a read of a key may give; calls may fail at will, and a failed
one may have had its effect. -/
structure Honest (host : CacheHost σ) (valid : σ → Prop) (holds : σ → String → String → Prop) :
    Prop extends host.Lawful valid where
  holds_write {s : σ} {c : Cache} {key text : String} : valid s →
    c.config = (host.read s).config → holds (host.write c s) key text → holds s key text
  holds_of_get {s : σ} {durable : DurableStore σ} {key text : String} : valid s →
    host.durable = some durable → ((durable.get key).exec s).1 = .ok (some text) →
      holds s key text
  holds_get {s : σ} {durable : DurableStore σ} {key other text : String} : valid s →
    host.durable = some durable → holds ((durable.get key).exec s).2 other text →
      holds s other text
  holds_set {s : σ} {durable : DurableStore σ} {key text other found : String} : valid s →
    host.durable = some durable →
      holds ((durable.set key text (host.read s).config.ttlSecs).exec s).2 other found →
        holds s other found ∨ (other = key ∧ found = text)

/-- An honest tier in which a write replaces what was there, or fails and
changes nothing. Texts may get lost at any time. -/
structure Fallible (host : CacheHost σ) (valid : σ → Prop) (holds : σ → String → String → Prop) :
    Prop extends host.Honest valid holds where
  set_ok {s : σ} {durable : DurableStore σ} {key text found : String} : valid s →
    host.durable = some durable →
      ((durable.set key text (host.read s).config.ttlSecs).exec s).1 = .ok () →
        holds ((durable.set key text (host.read s).config.ttlSecs).exec s).2 key found →
          found = text
  set_error {s : σ} {durable : DurableStore σ} {key text found : String} {e : Failure} : valid s →
    host.durable = some durable →
      ((durable.set key text (host.read s).config.ttlSecs).exec s).1 = .error e →
        holds ((durable.set key text (host.read s).config.ttlSecs).exec s).2 key found →
          holds s key found

/-- A durable tier that never fails and loses nothing: reads give the contents,
and writes change them at one key. -/
structure Reliable (host : CacheHost σ) (valid : σ → Prop)
    (contents : σ → String → Option String) : Prop extends host.Lawful valid where
  isSome_durable : host.durable.isSome = true
  contents_write {s : σ} {c : Cache} : valid s → c.config = (host.read s).config →
    contents (host.write c s) = contents s
  get_eq {s : σ} {durable : DurableStore σ} (key : String) : valid s →
    host.durable = some durable → ((durable.get key).exec s).1 = .ok (contents s key)
  contents_get {s : σ} {durable : DurableStore σ} (key : String) : valid s →
    host.durable = some durable → contents ((durable.get key).exec s).2 = contents s
  set_eq {s : σ} {durable : DurableStore σ} (key text : String) : valid s →
    host.durable = some durable →
      ((durable.set key text (host.read s).config.ttlSecs).exec s).1 = .ok ()
  contents_set {s : σ} {durable : DurableStore σ} (key text other : String) : valid s →
    host.durable = some durable →
      contents ((durable.set key text (host.read s).config.ttlSecs).exec s).2 other =
        if other = key then some text else contents s other

variable {host : CacheHost σ} {valid : σ → Prop}

theorem Lawful.lookup?_write {s : σ} {c : Cache} (h : host.Lawful valid) (hs : valid s)
    (hconfig : c.config = (host.read s).config) (hentries : c.entries = (host.read s).entries)
    (fingerprint : String) :
    (host.read (host.write c s)).lookup? fingerprint = (host.read s).lookup? fingerprint := by
  rw [h.read_write hs hconfig, Cache.lookup?, Cache.lookup?, hentries]

/-- Without a durable tier there is nothing to read. -/
theorem Lawful.fallible (h : host.Lawful valid) (hnone : host.durable = none) :
    host.Fallible valid fun _ _ _ => False where
  toLawful := h
  holds_write _ _ := id
  holds_of_get _ hdurable := by simp [hnone] at hdurable
  holds_get _ _ := id
  holds_set _ _ := False.elim
  set_ok _ _ _ := False.elim
  set_error _ _ _ := False.elim

/-- A key holds the text that is its content. -/
abbrev Holding (contents : σ → String → Option String) (s : σ) (key text : String) : Prop :=
  contents s key = some text

theorem Reliable.fallible {contents : σ → String → Option String}
    (h : host.Reliable valid contents) : host.Fallible valid (Holding contents) where
  toLawful := h.toLawful
  holds_write hs hc hholds := by rwa [Holding, h.contents_write hs hc] at hholds
  holds_of_get hs hdurable hget := by
    rw [h.get_eq _ hs hdurable] at hget
    exact Except.ok.inj hget
  holds_get hs hdurable hholds := by rwa [Holding, h.contents_get _ hs hdurable] at hholds
  holds_set hs hdurable hholds := by
    rw [Holding, h.contents_set _ _ _ hs hdurable] at hholds
    split at hholds
    next hkey => exact .inr ⟨hkey, (Option.some.inj hholds).symm⟩
    next => exact .inl hholds
  set_ok hs hdurable _ hholds := by
    rw [Holding, h.contents_set _ _ _ hs hdurable, if_pos rfl] at hholds
    exact (Option.some.inj hholds).symm
  set_error hs hdurable herror _ := by simp [h.set_eq _ _ hs hdurable] at herror

theorem Reliable.honest {contents : σ → String → Option String}
    (h : host.Reliable valid contents) : host.Honest valid (Holding contents) :=
  h.fallible.toHonest

/-- What may stand under each fingerprint: trees in the local tier and texts in
the durable one. A tree that such a text reads back as may stand there too. -/
structure Ledger where
  tree : String → Selection → Prop
  text : String → String → Prop
  tree_of_text {fingerprint text' : String} {t : Selection} : text fingerprint text' →
    Selection.decode? text' = some t → tree fingerprint t

/-- A tree may stand in the local tier, and its text in the durable one. -/
def Ledger.Covers (ledger : Ledger) (fingerprint : String) (t : Selection) : Prop :=
  ledger.tree fingerprint t ∧ ledger.text fingerprint t.encode

/-- A state of a host in which both tiers hold only what may stand there. -/
structure Sound (host : CacheHost σ) (valid : σ → Prop) (holds : σ → String → String → Prop)
    (config : CacheConfig) (ledger : Ledger) (s : σ) : Prop where
  valid : valid s
  within : (host.read s).Within config ledger.tree
  text : ∀ fingerprint text, holds s (config.keyPrefix ++ fingerprint) text →
    ledger.text fingerprint text

namespace Sound

variable {holds : σ → String → String → Prop} {config : CacheConfig} {ledger : Ledger} {s : σ}
  {c : Cache} {durable : DurableStore σ} {fingerprint : String} {t : Selection}

theorem of_fresh (hs : valid s) (hempty : (host.read s).entries = [])
    (hnothing : ∀ fingerprint text,
      ¬ holds s ((host.read s).config.keyPrefix ++ fingerprint) text) :
    host.Sound valid holds (host.read s).config ledger s where
  valid := hs
  within := .of_empty rfl hempty
  text fingerprint text hholds := absurd hholds (hnothing fingerprint text)

theorem durableKey_eq (hs : host.Sound valid holds config ledger s) (fingerprint : String) :
    (host.read s).durableKey fingerprint = config.keyPrefix ++ fingerprint := by
  rw [Cache.durableKey, hs.within.config_eq]

theorem config_eq (hs : host.Sound valid holds config ledger s)
    (hc : c.Within config ledger.tree) : c.config = (host.read s).config :=
  hc.config_eq.trans hs.within.config_eq.symm

theorem write (h : host.Honest valid holds) (hs : host.Sound valid holds config ledger s)
    (hc : c.Within config ledger.tree) : host.Sound valid holds config ledger (host.write c s) where
  valid := h.valid_write hs.valid (hs.config_eq hc)
  within := by rwa [h.read_write hs.valid (hs.config_eq hc)]
  text fingerprint text hholds :=
    hs.text fingerprint text (h.holds_write hs.valid (hs.config_eq hc) hholds)

theorem get (h : host.Honest valid holds) (hs : host.Sound valid holds config ledger s)
    (hdurable : host.durable = some durable) {key : String} {s' : σ}
    {result : Except Failure (Option String)} (hget : (durable.get key).exec s = (result, s')) :
    host.Sound valid holds config ledger s' := by
  obtain rfl : ((durable.get key).exec s).2 = s' := congrArg Prod.snd hget
  constructor
  · exact h.valid_get key hs.valid hdurable
  · rw [h.read_get key hs.valid hdurable]
    exact hs.within
  · intro fingerprint text hholds
    exact hs.text fingerprint text (h.holds_get hs.valid hdurable hholds)

theorem set (h : host.Honest valid holds) (hs : host.Sound valid holds config ledger s)
    (hdurable : host.durable = some durable) (ht : ledger.text fingerprint t.encode) :
    host.Sound valid holds config ledger
      ((durable.set ((host.read s).durableKey fingerprint) t.encode
        (host.read s).config.ttlSecs).exec s).2 where
  valid := h.valid_set _ _ hs.valid hdurable
  within := by rw [h.read_set _ _ hs.valid hdurable]; exact hs.within
  text other text hholds := by
    rcases h.holds_set hs.valid hdurable hholds with hholds | ⟨hkey, htext⟩
    · exact hs.text other text hholds
    · -- Keys of one cache have one prefix, so the key tells the fingerprint.
      rw [hs.durableKey_eq, String.append_right_inj] at hkey
      rwa [hkey, htext]

end Sound

end CacheHost

end FieldQuery
