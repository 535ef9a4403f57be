import FieldQuery.Proofs.Json.Document
import FieldQuery.Proofs.Selection.Numbers
import FieldQuery.Selection.Json

/-!
Selections read back from their texts. What comes back is the selection with
its numbers read back: labels, parentheses and groups, absent or empty, stay as
they were. The reader gives up when the text nests too deeply, or when a number
does not come back.
-/

namespace FieldQuery

/-! Nesting. -/

namespace Json

mutual

/-- How deep arrays and objects nest in one another. -/
def nesting : Json → Nat
  | .array items => nestingOfItems items + 1
  | .object members => nestingOfMembers members + 1
  | .null | .bool _ | .number _ | .string _ => 0

def nestingOfItems : List Json → Nat
  | [] => 0
  | v :: rest => max (nesting v) (nestingOfItems rest)

def nestingOfMembers : List (String × Json) → Nat
  | [] => 0
  | (_, v) :: rest => max (nesting v) (nestingOfMembers rest)

end

@[simp] theorem nestingOfMembers_append (members others : List (String × Json)) :
    nestingOfMembers (members ++ others) =
      max (nestingOfMembers members) (nestingOfMembers others) := by
  induction members with
  | nil => simp [nestingOfMembers]
  | cons m rest ih => simp [nestingOfMembers, ih, Nat.max_assoc]

@[simp] theorem rawMembers_append (members others : List (String × Json)) :
    rawMembers (members ++ others) = rawMembers members ++ rawMembers others := by
  induction members with
  | nil => rfl
  | cons m rest ih => simp [rawMembers, ih]

@[simp] theorem nesting_ofDouble (x : Double) : (ofDouble x).nesting = 0 := by
  unfold ofDouble
  cases JsonNumber.ofDouble? x <;> simp [nesting]

end Json

/-! Numbers. -/

namespace Double

/-- The number that is read where a number was written, if one is. -/
def reread? (x : Double) : Option Double :=
  ((JsonNumber.ofDouble? x).bind Json.reread).map JsonNumber.toDouble

/-- The text of the number is a numeral and reads as the number again. -/
def Survives (x : Double) : Prop :=
  ∃ n, Json.parse? (Json.ofDouble x).text = some (.number n) ∧ n.toDouble = x

variable {x : Double}

theorem survives_iff : x.Survives ↔ x.reread? = some x := by
  unfold Survives reread?
  cases hfinite : JsonNumber.ofDouble? x with
  | none | some =>
      simp [Json.ofDouble, hfinite, Json.parse?, RawJson.parse?_text, Json.raw, RawJson.toJson?]

theorem ofDouble?_of_not_finite (h : x.isFinite = false) : JsonNumber.ofDouble? x = none := by
  simp [JsonNumber.ofDouble?, FiniteDouble.ofDouble?, h]

theorem reread?_of_not_finite (h : x.isFinite = false) : x.reread? = none := by
  simp [reread?, ofDouble?_of_not_finite h]

end Double

/-! Parameters. -/

namespace Param

/-- The parameter with its number read back. -/
def reread? : Param → Option Param
  | .named name => some (.named name)
  | .number x => x.reread?.map .number
  | .literal text => some (.literal text)

theorem nesting_toJson (p : Param) : p.toJson.nesting = 1 := by
  cases p <;> simp [toJson, Json.nesting, Json.nestingOfMembers]

theorem ofRaw?_raw (p : Param) (room : Nat) :
    ofRaw? room p.toJson.raw = if p.toJson.nesting ≤ room then p.reread? else none := by
  rw [nesting_toJson]
  cases room with
  | zero => simp [ofRaw?]
  | succ room =>
      rw [if_pos (Nat.succ_le_succ (Nat.zero_le room))]
      cases p with
      | named name =>
          simp [toJson, Json.raw, Json.rawMembers, ofRaw?, RawJson.valuesAt?, RawJson.asChoice?,
            ofParts?, reread?]
      | literal text =>
          simp [toJson, Json.raw, Json.rawMembers, ofRaw?, RawJson.valuesAt?, RawJson.asChoice?,
            ofParts?, reread?]
      | number x =>
          have hvalue : ofParts? "number" (Json.ofDouble x).raw = x.reread?.map .number := by
            unfold Json.ofDouble Double.reread?
            cases JsonNumber.ofDouble? x with
            | none => simp [Json.raw, ofParts?]
            | some n => cases hread : Json.reread n <;> simp [Json.raw, ofParts?, hread]
          simp [toJson, Json.raw, Json.rawMembers, ofRaw?, RawJson.valuesAt?, RawJson.asChoice?,
            hvalue, reread?]

theorem mapM_ofRaw?_raw (params : List Param) (room : Nat) :
    (Json.rawItems (params.map toJson)).mapM (ofRaw? room) =
      if Json.nestingOfItems (params.map toJson) ≤ room then params.mapM reread? else none := by
  induction params with
  | nil => simp [Json.rawItems, Json.nestingOfItems]
  | cons p rest ih =>
      simp only [List.map_cons, Json.rawItems, Json.nestingOfItems, List.mapM_cons, ofRaw?_raw, ih,
        Nat.max_le]
      by_cases hp : p.toJson.nesting ≤ room <;>
        by_cases hrest : Json.nestingOfItems (rest.map toJson) ≤ room <;> simp [hp, hrest]

end Param

namespace Selection

open Json

/-! Members of a call. -/

def labelMembers : Option String → List (String × Json)
  | some label => [("alias", .string label)]
  | none => []

def paramsMembers : Option (List Param) → List (String × Json)
  | some params => [("params", .array (params.map Param.toJson))]
  | none => []

def nestedMembers : Option (List Call) → List (String × Json)
  | some calls => [("selection", .array (callsToJson calls))]
  | none => []

theorem callToJson_eq (c : Call) : callToJson c =
    .object (("name", .string c.name) ::
      (labelMembers c.label ++ (paramsMembers c.params ++ nestedMembers c.nested))) := by
  obtain ⟨name, label, params, nested⟩ := c
  cases label <;> cases params <;> cases nested <;>
    simp [callToJson, labelMembers, paramsMembers, nestedMembers]

/-! Selections read back. -/

def rereadParams? : Option (List Param) → Option (Option (List Param))
  | none => some none
  | some params => (params.mapM Param.reread?).map some

mutual

/-- The call with its numbers read back. -/
def rereadCall? : Call → Option Call
  | ⟨name, label, params, nested⟩ =>
      (rereadParams? params).bind fun params =>
        (rereadNested? nested).map fun nested => ⟨name, label, params, nested⟩

def rereadNested? : Option (List Call) → Option (Option (List Call))
  | none => some none
  | some calls => (reread? calls).map some

/-- The selection with its numbers read back, if they all come back. -/
def reread? : List Call → Option (List Call)
  | [] => some []
  | c :: rest =>
      (rereadCall? c).bind fun c => (reread? rest).map fun rest => c :: rest

end

theorem membersOfRaw?_label {d : Draft} (hd : d.label = none) (room : Nat) (label : Option String)
    (rest : List (Option String × RawJson)) :
    membersOfRaw? room (rawMembers (labelMembers label) ++ rest) d =
      membersOfRaw? room rest { d with label := label.map some } := by
  cases label with
  | none => simp [labelMembers, rawMembers, ← hd]
  | some label =>
      simp [labelMembers, rawMembers, raw, membersOfRaw?, hd, RawJson.asOptional?,
        RawJson.asString?]

theorem paramsOfRaw?_raw (params : List Param) (room : Nat) :
    paramsOfRaw? room (Json.array (params.map Param.toJson)).raw =
      if (Json.array (params.map Param.toJson)).nesting ≤ room
      then (params.mapM Param.reread?).map some else none := by
  cases room with
  | zero => simp [raw, nesting, paramsOfRaw?, RawJson.asOptional?, RawJson.asList?]
  | succ room =>
      simp only [raw, nesting, paramsOfRaw?, RawJson.asOptional?, RawJson.asList?,
        Param.mapM_ofRaw?_raw, Nat.add_le_add_iff_right]
      split <;> rfl

theorem membersOfRaw?_params {d : Draft} (hd : d.params = none) (room : Nat)
    (params : Option (List Param)) (rest : List (Option String × RawJson)) :
    membersOfRaw? room (rawMembers (paramsMembers params) ++ rest) d =
      (if nestingOfMembers (paramsMembers params) ≤ room then rereadParams? params else none).bind
        fun params => membersOfRaw? room rest { d with params := params.map some } := by
  cases params with
  | none => simp [paramsMembers, rawMembers, nestingOfMembers, rereadParams?, ← hd]
  | some params =>
      simp only [paramsMembers, rawMembers, nestingOfMembers, List.cons_append, List.nil_append,
        membersOfRaw?, hd, paramsOfRaw?_raw, Nat.max_zero, rereadParams?]
      by_cases hfit : (Json.array (params.map Param.toJson)).nesting ≤ room
      · cases params.mapM Param.reread? <;> simp [hfit]
      · simp [hfit]

/-- Room for the nesting of a group is what its reader needs. -/
def ReadsCalls (calls : List Call) : Prop :=
  ∀ room, itemsOfRaw? room (rawItems (callsToJson calls)) =
    if nestingOfItems (callsToJson calls) ≤ room then reread? calls else none

theorem membersOfRaw?_nested {d : Draft} (hd : d.nested = none) (room : Nat)
    (nested : Option (List Call)) (hnested : ∀ calls, nested = some calls → ReadsCalls calls) :
    membersOfRaw? room (rawMembers (nestedMembers nested)) d =
      (if nestingOfMembers (nestedMembers nested) ≤ room then rereadNested? nested else none).map
        fun nested => { d with nested := nested.map some } := by
  cases nested with
  | none => simp [nestedMembers, rawMembers, nestingOfMembers, rereadNested?, membersOfRaw?, ← hd]
  | some calls =>
      have hcalls := hnested calls rfl
      cases room with
      | zero => simp [nestedMembers, rawMembers, nestingOfMembers, nesting, raw, membersOfRaw?, hd,
          nestedOfRaw?, callsOfRaw?]
      | succ room =>
          simp only [nestedMembers, rawMembers, nestingOfMembers, nesting, raw, membersOfRaw?, hd,
            nestedOfRaw?, callsOfRaw?, hcalls room, Nat.max_zero, Nat.add_le_add_iff_right,
            rereadNested?]
          by_cases hfit : nestingOfItems (callsToJson calls) ≤ room
          · cases reread? calls <;> simp [hfit]
          · simp [hfit]

/-! Selections. -/

theorem Draft.call?_map_some (name : String) (label : Option String) (params : Option (List Param))
    (nested : Option (List Call)) :
    Draft.call? ⟨some name, label.map some, params.map some, nested.map some⟩ =
      some ⟨name, label, params, nested⟩ := by
  cases label <;> cases params <;> cases nested <;> rfl

theorem nesting_callToJson (c : Call) : (callToJson c).nesting =
    max (nestingOfMembers (paramsMembers c.params)) (nestingOfMembers (nestedMembers c.nested)) +
      1 := by
  have hlabel : nestingOfMembers (labelMembers c.label) = 0 := by
    cases c.label <;> simp [labelMembers, nestingOfMembers, nesting]
  simp [callToJson_eq, nesting, nestingOfMembers, hlabel]

theorem callOfRaw?_raw (c : Call) (hnested : ∀ calls, c.nested = some calls → ReadsCalls calls)
    (room : Nat) : callOfRaw? room (callToJson c).raw =
      if (callToJson c).nesting ≤ room then rereadCall? c else none := by
  cases room with
  | zero => simp [callToJson_eq, raw, callOfRaw?, nesting]
  | succ room =>
      have hgroup (params : Option (Option (List Param))) :
          membersOfRaw? room (rawMembers (nestedMembers c.nested))
              ⟨some c.name, c.label.map some, params, none⟩ =
            (if nestingOfMembers (nestedMembers c.nested) ≤ room
              then rereadNested? c.nested else none).map
              fun nested => ⟨some c.name, c.label.map some, params, nested.map some⟩ :=
        membersOfRaw?_nested rfl room c.nested hnested
      rw [nesting_callToJson]
      simp only [callToJson_eq, raw, rawMembers, rawMembers_append, callOfRaw?, membersOfRaw?,
        Draft.empty, RawJson.asString?, Nat.add_le_add_iff_right, Nat.max_le]
      rw [membersOfRaw?_label rfl, membersOfRaw?_params rfl]
      simp only [hgroup]
      obtain ⟨name, label, params, nested⟩ := c
      simp only [rereadCall?]
      -- A part that nests too deeply stops the reader, whatever numbers it holds.
      by_cases hparams : nestingOfMembers (paramsMembers params) ≤ room
      · by_cases hfit : nestingOfMembers (nestedMembers nested) ≤ room
        · simp only [hparams, hfit, and_self, if_true]
          cases rereadParams? params with
          | none => rfl
          | some params =>
              cases rereadNested? nested with
              | none => rfl
              | some nested => exact Draft.call?_map_some name label params nested
        · simp [hfit]
      · simp [hparams]

mutual

theorem callOfRaw?_callToJson : ∀ (c : Call) (room : Nat), callOfRaw? room (callToJson c).raw =
    if (callToJson c).nesting ≤ room then rereadCall? c else none
  | ⟨_, _, _, none⟩, room => callOfRaw?_raw _ (by simp) room
  | ⟨_, _, _, some calls⟩, room => by
      refine callOfRaw?_raw _ (fun others h => ?_) room
      obtain rfl := Option.some.inj h
      exact readsCalls calls

theorem readsCalls : ∀ calls : List Call, ReadsCalls calls
  | [] => fun room => by
      simp [callsToJson, rawItems, nestingOfItems, itemsOfRaw?, reread?]
  | c :: rest => fun room => by
      simp only [callsToJson, rawItems, nestingOfItems, itemsOfRaw?, Nat.max_le, reread?,
        callOfRaw?_callToJson c room, readsCalls rest room]
      by_cases hc : (callToJson c).nesting ≤ room
      · by_cases hrest : nestingOfItems (callsToJson rest) ≤ room
        · simp only [hc, hrest, and_self, if_true]
          cases rereadCall? c <;> cases reread? rest <;> rfl
        · simp [hrest]
      · simp [hc]

end

/-- A selection comes back from its text with its numbers read back, if the
text does not nest too deeply. -/
theorem decode?_encode (s : Selection) : decode? s.encode =
    if s.toJson.nesting ≤ RawJson.nestingLimit then reread? s else none := by
  simp only [decode?, encode, RawJson.parse?_text, Option.bind_some, toJson, raw, nesting,
    RawJson.nestingLimit, callsOfRaw?, readsCalls s 126, Nat.succ_le_succ_iff]

end Selection

/-! Numbers that come back, and numbers that do not. -/

namespace Param

variable {params read : List Param}

theorem mapM_reread?_eq (h : ∀ x ∈ params.filterMap number?, x.Survives) :
    params.mapM reread? = some params := by
  induction params with
  | nil => rfl
  | cons p rest ih =>
      have hp : p.reread? = some p := by
        cases p with
        | named | literal => rfl
        | number x =>
            have hx : x.reread? = some x := Double.survives_iff.mp (h x (by simp [number?]))
            simp [reread?, hx]
      have hrest : rest.mapM reread? = some rest := by
        refine ih fun x hx => h x ?_
        obtain ⟨q, hq, hqx⟩ := List.mem_filterMap.mp hx
        exact List.mem_filterMap.mpr ⟨q, List.mem_cons_of_mem p hq, hqx⟩
      simp [List.mapM_cons, hp, hrest]

theorem isSome_of_mapM_reread? (h : params.mapM reread? = some read) :
    ∀ x ∈ params.filterMap number?, x.reread?.isSome = true := by
  induction params generalizing read with
  | nil => simp
  | cons p rest ih =>
      rw [List.mapM_cons] at h
      obtain ⟨q, hp, hmore⟩ := Option.bind_eq_some_iff.mp h
      obtain ⟨others, hrest, -⟩ := Option.bind_eq_some_iff.mp hmore
      intro x hx
      obtain ⟨r, hr, hrx⟩ := List.mem_filterMap.mp hx
      rcases List.mem_cons.mp hr with rfl | hr
      · cases r with
        | named | literal => cases hrx
        | number y =>
            obtain rfl : y = x := Option.some.inj hrx
            obtain ⟨z, hz, -⟩ := Option.map_eq_some_iff.mp hp
            simp [hz]
      · exact ih hrest x (List.mem_filterMap.mpr ⟨r, hr, hrx⟩)

end Param

namespace Selection

theorem rereadParams?_eq {params : Option (List Param)}
    (h : ∀ x ∈ (params.getD []).filterMap Param.number?, x.Survives) :
    rereadParams? params = some params := by
  cases params with
  | none => rfl
  | some params =>
      have hread : params.mapM Param.reread? = some params := Param.mapM_reread?_eq h
      simp [rereadParams?, hread]

theorem isSome_of_rereadParams? {params read : Option (List Param)}
    (h : rereadParams? params = some read) :
    ∀ x ∈ (params.getD []).filterMap Param.number?, x.reread?.isSome = true := by
  cases params with
  | none => simp
  | some params =>
      obtain ⟨others, hothers, -⟩ := Option.map_eq_some_iff.mp h
      exact Param.isSome_of_mapM_reread? hothers

mutual

theorem rereadCall?_eq : ∀ c : Call, (∀ x ∈ numbers [c], x.Survives) → rereadCall? c = some c
  | ⟨_, _, params, none⟩, h => by
      have hparams : rereadParams? params = some params :=
        rereadParams?_eq fun x hx => h x (by simpa [Call.numbers, Call.args] using hx)
      simp [rereadCall?, hparams, rereadNested?]
  | ⟨_, _, params, some calls⟩, h => by
      have hparams : rereadParams? params = some params :=
        rereadParams?_eq fun x hx => h x (by simp [Call.numbers, Call.args, hx])
      have hcalls : reread? calls = some calls := reread?_eq calls fun x hx => h x (by simp [hx])
      simp [rereadCall?, hparams, rereadNested?, hcalls]

theorem reread?_eq : ∀ s : List Call, (∀ x ∈ numbers s, x.Survives) → reread? s = some s
  | [], _ => rfl
  | c :: rest, h => by
      rw [numbers_split, List.forall_mem_append] at h
      simp [reread?, rereadCall?_eq c h.1, reread?_eq rest h.2]

end

mutual

theorem isSome_of_rereadCall? : ∀ {c d : Call}, rereadCall? c = some d →
    ∀ x ∈ numbers [c], x.reread?.isSome = true
  | ⟨_, _, _, none⟩, _, h => by
      obtain ⟨read, hparams, -⟩ := Option.bind_eq_some_iff.mp h
      simpa [Call.numbers, Call.args] using isSome_of_rereadParams? hparams
  | ⟨_, _, _, some calls⟩, _, h => by
      obtain ⟨read, hparams, hmore⟩ := Option.bind_eq_some_iff.mp h
      obtain ⟨nested, hnested, -⟩ := Option.map_eq_some_iff.mp hmore
      obtain ⟨others, hcalls, -⟩ := Option.map_eq_some_iff.mp hnested
      intro x hx
      rw [numbers_cons, numbers_nil, List.append_nil] at hx
      rcases List.mem_append.mp hx with hx | hx
      · exact isSome_of_rereadParams? hparams x hx
      · exact isSome_of_reread? hcalls x hx

theorem isSome_of_reread? : ∀ {s t : List Call}, reread? s = some t →
    ∀ x ∈ numbers s, x.reread?.isSome = true
  | [], _, _ => by simp
  | c :: rest, _, h => by
      obtain ⟨d, hc, hmore⟩ := Option.bind_eq_some_iff.mp h
      obtain ⟨others, hrest, -⟩ := Option.map_eq_some_iff.mp hmore
      rw [numbers_split]
      exact List.forall_mem_append.mpr ⟨isSome_of_rereadCall? hc, isSome_of_reread? hrest⟩

end

theorem reread?_of_not_finite {s : Selection} {x : Double} (hx : x ∈ s.numbers)
    (h : x.isFinite = false) : reread? s = none := by
  cases hread : reread? s with
  | none => rfl
  | some t =>
      have hsome := isSome_of_reread? hread x hx
      simp [Double.reread?_of_not_finite h] at hsome

/-- A tree whose numbers survive comes back as it is, or not at all. -/
theorem decode?_encode_of_survives {s : Selection} (h : ∀ x ∈ s.numbers, x.Survives) :
    decode? s.encode = if s.toJson.nesting ≤ RawJson.nestingLimit then some s else none := by
  rw [decode?_encode, reread?_eq s h]

end Selection

end FieldQuery
