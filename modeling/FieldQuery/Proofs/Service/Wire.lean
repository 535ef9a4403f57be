import FieldQuery.Proofs.Fields
import FieldQuery.Service.Request

/-!
Requests on the wire. A request shares one object between its own members and
its parameters, so it comes back only if no parameter has the name of one of
these members; no request that was read has such a parameter.
-/

namespace FieldQuery

namespace Request

/-- No parameter has the name of a member of the request itself. -/
def Free (params : Fields Json) : Prop :=
  fingerprintKey ∉ Fields.names params ∧ schemaKey ∉ Fields.names params

/-! Members under a key. -/

theorem valuesOf_append (key : String) (before after : Fields Json) :
    valuesOf key (before ++ after) = valuesOf key before ++ valuesOf key after := by
  simp [valuesOf]

theorem valuesOf_cons_self (key : String) (value : Json) (rest : Fields Json) :
    valuesOf key ((key, value) :: rest) = value :: valuesOf key rest := by
  simp [valuesOf]

theorem valuesOf_cons_of_ne {key name : String} (h : name ≠ key) (value : Json)
    (rest : Fields Json) : valuesOf key ((name, value) :: rest) = valuesOf key rest := by
  simp [valuesOf, h]

theorem valuesOf_eq_nil {key : String} {members : Fields Json} (h : key ∉ Fields.names members) :
    valuesOf key members = [] := by
  rw [valuesOf, List.map_eq_nil_iff, List.filter_eq_nil_iff]
  intro member hmember hkey
  exact h (List.mem_map.mpr ⟨member, hmember, by simpa using hkey⟩)

theorem isParam_iff {member : String × Json} :
    isParam member = true ↔ member.1 ≠ fingerprintKey ∧ member.1 ≠ schemaKey := by
  simp [isParam]

theorem Free.filter_isParam {params : Fields Json} (h : Free params) :
    params.filter isParam = params := by
  rw [List.filter_eq_self]
  intro member hmember
  have hname : member.1 ∈ Fields.names params := List.mem_map_of_mem hmember
  refine isParam_iff.mpr ⟨?_, ?_⟩
  · exact fun heq => h.1 (heq ▸ hname)
  · exact fun heq => h.2 (heq ▸ hname)

theorem free_params (members : Fields Json) :
    Free (Fields.ofList (members.filter isParam)) := by
  have hnames : ∀ name ∈ Fields.names (Fields.ofList (members.filter isParam)),
      name ≠ fingerprintKey ∧ name ≠ schemaKey := by
    intro name hname
    obtain ⟨member, hmember, rfl⟩ := List.mem_map.mp (Fields.mem_names_ofList hname)
    exact isParam_iff.mp (List.mem_filter.mp hmember).2
  exact ⟨fun hmem => (hnames _ hmem).1 rfl, fun hmem => (hnames _ hmem).2 rfl⟩

/-! Reading. -/

/-- A request that was read has free parameters. -/
theorem free_of_ofMembers? {members : Fields Json} {r : Request}
    (h : ofMembers? members = some r) : Free r.params := by
  unfold ofMembers? at h
  split at h
  next =>
    obtain ⟨fingerprint, -, rfl⟩ := Option.map_eq_some_iff.mp h
    exact free_params members
  next =>
    split at h
    next =>
      obtain rfl := Option.some.inj h
      exact free_params members
    next => simp at h
  next => simp at h

theorem ofMembers?_members {r : Request} (hnames : (Fields.names r.params).Nodup)
    (hfree : Free r.params) : ofMembers? r.members = some r := by
  obtain ⟨fingerprint, schema, params⟩ := r
  have hfingerprints := valuesOf_eq_nil hfree.1
  have hschemas := valuesOf_eq_nil hfree.2
  have hne : schemaKey ≠ fingerprintKey := by decide
  have hparams := Fields.ofList_of_nodup hnames
  cases schema with
  | none =>
      simp [members, ofMembers?, valuesOf_cons_self, valuesOf_cons_of_ne hne.symm, hfingerprints,
        hschemas, fingerprintOf?, isParam, hfree.filter_isParam, hparams]
  | some schema =>
      simp [members, ofMembers?, valuesOf_cons_self, valuesOf_cons_of_ne hne,
        valuesOf_cons_of_ne hne.symm, hfingerprints,
        hschemas, fingerprintOf?, schemaOf?, isParam, hfree.filter_isParam, hparams]

/-- Of the member with the fingerprint only the fingerprint matters. -/
theorem ofMembers?_congr {token other : Json} (h : fingerprintOf? token = fingerprintOf? other)
    (before after : Fields Json) :
    ofMembers? (before ++ (fingerprintKey, token) :: after) =
      ofMembers? (before ++ (fingerprintKey, other) :: after) := by
  have hne : fingerprintKey ≠ schemaKey := by decide
  have hparam (value : Json) : isParam (fingerprintKey, value) = false := by simp [isParam]
  simp only [ofMembers?, valuesOf_append, valuesOf_cons_self, valuesOf_cons_of_ne hne,
    List.filter_append, List.filter_cons, hparam, Bool.false_eq_true, if_false]
  cases valuesOf fingerprintKey before with
  | nil =>
      cases valuesOf fingerprintKey after with
      | nil =>
          generalize valuesOf schemaKey before ++ valuesOf schemaKey after = schemas
          rcases schemas with _ | ⟨schema, _ | ⟨more, rest⟩⟩ <;> simp [h]
      | cons value rest => simp
  | cons value rest => simp

/-- The hash of a schema as an integer is read as its fingerprint. -/
theorem fingerprintOf?_hash (schema : String) :
    fingerprintOf? (.ofInt64 (Fingerprint.hash schema).toInt64) =
      some (FieldQuery.fingerprint schema) := by
  have hbound : (Fingerprint.hash schema).toInt64.toInt < Word.signedEnd := Int64.toInt_lt _
  rw [Json.ofInt64, fingerprintOf?, JsonInt.ofInt64, if_pos hbound]
  exact congrArg (fun n : Int => some (toString n)) (Int32.toInt_toInt64 _)

end Request

/-- A request with distinct names of parameters is read from its members as it
was exactly if no parameter has the name of a member of the request itself. The
hash of a schema, as an integer, stands for the fingerprint in every body, so
the request is read from its members with the integer as well. -/
theorem ofMembers?_members_iff (r : Request) (hnames : (Fields.names r.params).Nodup) :
    (Request.ofMembers? r.members = some r ↔
      Request.fingerprintKey ∉ Fields.names r.params ∧
        Request.schemaKey ∉ Fields.names r.params) ∧
    ∀ schema : String,
      (∀ before after : Fields Json,
        Request.ofMembers? (before ++
            (Request.fingerprintKey, .ofInt64 (Fingerprint.hash schema).toInt64) :: after) =
          Request.ofMembers? (before ++
            (Request.fingerprintKey, .string (fingerprint schema)) :: after)) ∧
      (r.fingerprint = fingerprint schema → Request.Free r.params →
        Request.ofMembers? ((Request.fingerprintKey,
          .ofInt64 (Fingerprint.hash schema).toInt64) :: r.members.tail) = some r) := by
  have hread := Request.ofMembers?_members hnames
  refine ⟨⟨Request.free_of_ofMembers?, hread⟩, ?_⟩
  intro schema
  have htoken : Request.fingerprintOf? (.ofInt64 (Fingerprint.hash schema).toInt64) =
      Request.fingerprintOf? (.string (fingerprint schema)) := Request.fingerprintOf?_hash schema
  have hsame := Request.ofMembers?_congr htoken
  refine ⟨hsame, ?_⟩
  intro hfingerprint hfree
  have hmembers : r.members =
      (Request.fingerprintKey, .string (fingerprint schema)) :: r.members.tail := by
    rw [← hfingerprint]
    rfl
  calc Request.ofMembers? ((Request.fingerprintKey,
          .ofInt64 (Fingerprint.hash schema).toInt64) :: r.members.tail)
      = Request.ofMembers? r.members := by
        rw [hmembers]
        exact hsame [] r.members.tail
    _ = some r := hread hfree

/-- A parameter beside the schema comes back, and beside a hash; one in the
place of an absent schema does not. -/
theorem id_read_back :
    Request.ofMembers? (Request.members ⟨"7", some "user", [("id", .null)]⟩) =
        some ⟨"7", some "user", [("id", .null)]⟩ ∧
      Request.ofMembers? [("apiql", .ofInt64 (Fingerprint.hash "user").toInt64), ("id", .null)] =
        some ⟨fingerprint "user", none, [("id", .null)]⟩ ∧
      Request.ofMembers? (Request.members ⟨"7", none, [("apiql_request", .null)]⟩) ≠
        some ⟨"7", none, [("apiql_request", .null)]⟩ := by
  refine ⟨?_, ?_, ?_⟩
  · exact (ofMembers?_members_iff ⟨"7", some "user", [("id", .null)]⟩ (by decide)).1.mpr
      ⟨by decide, by decide⟩
  · exact ((ofMembers?_members_iff ⟨fingerprint "user", none, [("id", .null)]⟩
      (by decide)).2 "user").2 rfl ⟨by decide, by decide⟩
  · intro h
    have hfree := (ofMembers?_members_iff ⟨"7", none, [("apiql_request", .null)]⟩
      (by decide)).1.mp h
    exact absurd hfree.2 (by decide)

end FieldQuery
