import FieldQuery.Host.World
import FieldQuery.Model
import FieldQuery.Proofs.Fields
import FieldQuery.Proofs.Number.Integers
import FieldQuery.Proofs.Schema.CallText
import FieldQuery.Proofs.Value.Json

/-!
Integers as arguments. One in the schema is a number of 53 bits and a power of
two, and one among the parameters of a request is a word, so an operation can
tell them apart exactly if the integer is not such a number.
-/

namespace FieldQuery

variable {Obj σ : Type}

/-! Tokens. -/

theorem Text.isBlank_of_isAlpha {c : Char} (h : c.isAlpha = true) : isBlank c = false :=
  isBlank_eq_false (by decide) h

namespace Param

theorem isPlain_of_isNameChar {c : Char} (h : isNameChar c = true) : IsPlain c := by
  have hblank : Text.isBlank c = false :=
    Schema.isBlank_of_isNameChar (by simp [Schema.isNameChar, h])
  exact isPlain_of (p := fun c => isNameChar c = true) h hblank (by decide) (by decide)

theorem isPlain_of_isAlpha {c : Char} (h : c.isAlpha = true) : IsPlain c :=
  isPlain_of (p := fun c => c.isAlpha = true) h (Text.isBlank_of_isAlpha h) (by decide) (by decide)

theorem isPlain_of_isIdentifier {text : List Char} (h : isIdentifier text = true) :
    ∀ c ∈ text, IsPlain c := by
  cases text with
  | nil => simp
  | cons first rest =>
      simp only [isIdentifier, Bool.and_eq_true, Bool.or_eq_true, beq_iff_eq,
        List.all_eq_true] at h
      obtain ⟨hfirst, hrest⟩ := h
      refine List.forall_mem_cons.mpr ⟨?_, fun c hc => isPlain_of_isNameChar (hrest c hc)⟩
      rcases hfirst with hfirst | rfl
      · exact isPlain_of_isAlpha hfirst
      · exact isPlain_of_isNameChar (by decide)

theorem ofToken_of_isIdentifier {text : List Char} (h : isIdentifier text = true) :
    ofToken text = .named (String.ofList text) := by
  have htrim := Text.trim_of_no_blank fun c hc => (isPlain_of_isIdentifier h c hc).1
  simp [ofToken, htrim, h]

theorem isPlain_of_int? {text : List Char} {n : Int} (h : Numeral.int? text = some n) :
    ∀ c ∈ text, IsPlain c := by
  obtain ⟨-, -, -, -, hchars⟩ := Numeral.exists_of_int? h
  intro c hc
  exact IsNumeric.isPlain ((hchars c hc).imp_right (.imp_right .inl))

/-- An integer of one word is a number, and equal to it if it is representable. -/
theorem ofToken_of_int? {text : List Char} {n : Int} (h : Numeral.int? text = some n)
    (hn : n.natAbs ≤ Word.signedEnd) : ∃ x : Double, ofToken text = .number x ∧
      (x.toInt? = some n ↔ Double.Representable n) := by
  obtain ⟨negative, magnitude, rfl, hread, hchars⟩ := Numeral.exists_of_int? h
  rw [Double.natAbs_signed] at hn
  have hnumeric : ∀ c ∈ text, IsNumeric c := fun c hc => (hchars c hc).imp_right (.imp_right .inl)
  exact ⟨_, ofToken_of_numeric hnumeric hread (Double.isFinite_ofDecimal hn negative),
    Double.toInt?_ofDecimal_iff hn negative⟩

end Param

/-- A call hands these arguments to the operation that is bound to its name, or
to the one that the name goes on from. -/
structure Api.Passes (api : Api Obj σ) (ctx : Context Obj σ) (c : Call) (args : List (Value Obj)) :
    Prop where
  bound : ∀ operation, Fields.get? api.operations c.name = some operation →
    api.invoke ctx c = .ofOperation (operation ⟨c.name, args, [], ctx⟩)
  dotted : ∀ head operation rest, Fields.get? api.operations c.name = none →
    api.longestPrefix? c.path = some (head, operation, rest) →
    api.invoke ctx c = do
      let v ← CallRun.ofOperation (operation ⟨head, args, [], ctx⟩)
      .ofExcept (Api.walk ctx c.name rest v)

/-- A schema compiles to one call of this name, which passes these arguments. -/
def Api.Delivers (api : Api Obj σ) (ctx : Context Obj σ) (schema name : String)
    (args : List (Value Obj)) : Prop :=
  ∃ c, compile schema = .ok [c] ∧ c.name = name ∧ api.Passes ctx c args

theorem Api.delivers_of_compile {schema name : String} {p : Param}
    (h : compile schema = .ok [⟨name, none, some [p], none⟩]) (api : Api Obj σ)
    (ctx : Context Obj σ) : api.Delivers ctx schema name [ctx.resolveParam p] := by
  refine ⟨_, h, rfl, ?_, ?_⟩
  · intro operation hoperation
    rw [Api.invoke, hoperation]
    rfl
  · intro head operation rest hnone hlongest
    rw [Api.invoke, hnone, hlongest]
    rfl

theorem Api.delivers_numeral {n : Int} {numeral name : String} (hname : Schema.NameText name.toList)
    (hnumeral : Numeral.int? numeral.toList = some n) (hn : n.natAbs ≤ Word.signedEnd)
    (api : Api Obj σ) (ctx : Context Obj σ) : ∃ x : Double,
      api.Delivers ctx (name ++ "(" ++ numeral ++ ")") name [.float x] ∧
        (x.toInt? = some n ↔ Double.Representable n) := by
  obtain ⟨x, htoken, hx⟩ := Param.ofToken_of_int? hnumeral hn
  have hne : numeral.toList ≠ [] := by
    intro hnil
    rw [hnil] at hnumeral
    cases hnumeral
  have hcompile := compile_single hname hne (Param.isPlain_of_int? hnumeral)
  rw [htoken] at hcompile
  exact ⟨x, delivers_of_compile hcompile api ctx, hx⟩

theorem Api.delivers_named {param name : String} (hname : Schema.NameText name.toList)
    (hparam : Param.isIdentifier param.toList = true) (api : Api Obj σ) {ctx : Context Obj σ}
    {v : Value Obj} (hv : ctx.param? param = some v) :
    api.Delivers ctx (name ++ "(" ++ param ++ ")") name [v] := by
  have hne : param.toList ≠ [] := by
    intro hnil
    rw [hnil] at hparam
    cases hparam
  have hcompile := compile_single hname hne (Param.isPlain_of_isIdentifier hparam)
  rw [Param.ofToken_of_isIdentifier hparam, String.ofList_toList] at hcompile
  have hresolve : ctx.resolveParam (.named param) = v := by
    change (ctx.param? param).getD .null = v
    rw [hv]
    rfl
  rw [← hresolve]
  exact delivers_of_compile hcompile api ctx

/-! Parameters of a request. -/

theorem Value.names_ofMembers (members : Fields Json) :
    Fields.names (ofMembers members : Fields (Value Obj)) = Fields.names members := by
  induction members with
  | nil => rfl
  | cons member rest ih =>
      obtain ⟨key, v⟩ := member
      exact congrArg (key :: ·) ih

theorem Value.get?_ofMembers (members : Fields Json) (key : String) :
    Fields.get? (ofMembers members : Fields (Value Obj)) key =
      (Fields.get? members key).map ofJson := by
  induction members with
  | nil => rfl
  | cons member rest ih =>
      obtain ⟨name, v⟩ := member
      by_cases h : name = key
      · simp [ofMembers, Fields.get?, h]
      · simpa [ofMembers, Fields.get?, h] using ih

theorem Context.param?_of_request {members : Fields Json} {param : String} {v : Json}
    (hnames : (Fields.names members).Nodup) (hv : Fields.get? members param = some v)
    (ctx : Context Obj σ) :
    (ctx.withParams (Value.ofMembers members)).param? param = some (.ofJson v) := by
  have hnames' : (Fields.names (Value.ofMembers members : Fields (Value Obj))).Nodup := by
    rwa [Value.names_ofMembers]
  have hget : Fields.get? (Value.ofMembers members : Fields (Value Obj)) param =
      some (.ofJson v) := by
    rw [Value.get?_ofMembers, hv]
    rfl
  exact Fields.get?_extend hnames' hget

/-! Integers of values. -/

theorem Word.int64?_eq_some_iff {k : Int} {n : Int64} : int64? k = some n ↔ k = n.toInt := by
  unfold int64?
  constructor
  · intro h
    split at h
    next hk =>
      obtain rfl := Option.some.inj h
      exact (Int64.toInt_ofInt_of_le hk.1 hk.2).symm
    next => cases h
  · rintro rfl
    rw [if_pos ⟨n.le_toInt, n.toInt_lt⟩, Int64.ofInt_toInt]

theorem Word.natAbs_toInt_le (n : Int64) : n.toInt.natAbs ≤ signedEnd := by
  have hleast := n.le_toInt
  have hbound := n.toInt_lt
  unfold signedEnd
  omega

theorem Value.asInt64?_float {x : Double} {n : Int64} :
    (Value.float x : Value Obj).asInt64? = some n ↔ x.toInt? = some n.toInt := by
  change x.toInt?.bind Word.int64? = some n ↔ _
  rw [Option.bind_eq_some_iff]
  simp [Word.int64?_eq_some_iff]

/-! Records. -/

/-- A repository tells ids apart only by their integers, as far as they have
any. -/
structure Repository.KnowsIntegers (r : Repository Obj σ) : Prop where
  find : ∀ {v w : Value Obj} {n : Int64}, v.asInt64? = some n → w.asInt64? = some n →
    r.find v = r.find w
  update : ∀ {v w : Value Obj} {n : Int64}, v.asInt64? = some n → w.asInt64? = some n →
    r.update v = r.update w
  destroy : ∀ {v w : Value Obj} {n : Int64}, v.asInt64? = some n → w.asInt64? = some n →
    r.destroy v = r.destroy w

namespace Model

/-- To the operations on single records, two ids are the same. -/
structure SameId (m : Model Obj σ) (v w : Value Obj) : Prop where
  showOne : ∀ name rest hints ctx,
    m.showOne ⟨name, v :: rest, hints, ctx⟩ = m.showOne ⟨name, w :: rest, hints, ctx⟩
  updateOne : ∀ name rest hints ctx,
    m.updateOne ⟨name, v :: rest, hints, ctx⟩ = m.updateOne ⟨name, w :: rest, hints, ctx⟩
  destroyOne : ∀ name rest hints ctx,
    m.destroyOne ⟨name, v :: rest, hints, ctx⟩ = m.destroyOne ⟨name, w :: rest, hints, ctx⟩

variable {m : Model Obj σ} {v w : Value Obj} {n : Int64}

theorem idText_of_asInt64? (h : v.asInt64? = some n) : idText v = toString n.toInt := by
  unfold idText
  rw [h]

theorem findRecord_congr (h : m.repository.KnowsIntegers) (hv : v.asInt64? = some n)
    (hw : w.asInt64? = some n) : m.findRecord v = m.findRecord w := by
  funext hints
  rw [findRecord, findRecord, h.find hv hw, idText_of_asInt64? hv, idText_of_asInt64? hw]

theorem sameId_of_asInt64? (h : m.repository.KnowsIntegers) (hv : v.asInt64? = some n)
    (hw : w.asInt64? = some n) : m.SameId v w := by
  have hfind := findRecord_congr h hv hw
  refine ⟨?showOne, ?updateOne, ?destroyOne⟩ <;> intro name rest hints ctx
  case showOne =>
    change m.findRecord v hints >>= _ = m.findRecord w hints >>= _
    rw [hfind]
    rfl
  case updateOne =>
    change (do
      let item ← m.findRecord v []
      authorize ⟨name, w :: rest, hints, ctx⟩ .update (.ofRecord m.typeName item)
      m.repository.update v (← Run.ofExcept (paramsArg ctx m.updateHook _))) = _
    rw [hfind, h.update hv hw]
    rfl
  case destroyOne =>
    change (do
      let item ← m.findRecord v []
      authorize ⟨name, w :: rest, hints, ctx⟩ .destroy (.ofRecord m.typeName item)
      m.repository.destroy v) = _
    rw [hfind, h.destroy hv hw]
    rfl

end Model

/-- An integer in the schema and the same one among the parameters of a request
are the same integer to an operation, and so the same id to a repository that
knows ids by their integers, exactly if it is 53 bits and a power of two. -/
theorem Api.integer_delivered_twice {n : Int64} {numeral name param : String} {r : Request}
    (hname : Schema.NameText name.toList) (hnumeral : Numeral.int? numeral.toList = some n.toInt)
    (hparam : Param.isIdentifier param.toList = true) (hnames : (Fields.names r.params).Nodup)
    (hmember : Fields.get? r.params param = some (.ofInt64 n)) (api : Api Obj σ)
    (ctx : Context Obj σ) : ∃ literal : Value Obj,
      api.Delivers (ctx.withParams (Value.ofMembers r.params)) (name ++ "(" ++ numeral ++ ")") name
        [literal] ∧
      api.Delivers (ctx.withParams (Value.ofMembers r.params)) (name ++ "(" ++ param ++ ")") name
        [.int n] ∧
      (Value.int n : Value Obj).asInt64? = some n ∧
      (literal.asInt64? = some n ↔ Double.Representable n.toInt) ∧
      (Double.Representable n.toInt → ∀ m : Model Obj σ, m.repository.KnowsIntegers →
        m.SameId literal (.int n)) := by
  obtain ⟨x, hliteral, hx⟩ := delivers_numeral hname hnumeral (Word.natAbs_toInt_le n) api
    (ctx.withParams (Value.ofMembers r.params))
  have hvalue := ctx.param?_of_request hnames hmember
  rw [Value.ofJson_ofInt64] at hvalue
  have hasInt : (Value.float x : Value Obj).asInt64? = some n ↔ Double.Representable n.toInt :=
    Value.asInt64?_float.trans hx
  refine ⟨.float x, hliteral, delivers_named hname hparam api hvalue, rfl, hasInt, ?_⟩
  intro hn m hknows
  exact Model.sameId_of_asInt64? hknows (hasInt.mpr hn) rfl

namespace Host

/-! Notes that are nothing but their ids. -/

namespace Register

def repository : Repository Empty (List Int64) where
  count := return (← get).length
  list _ _ := return (← get).map .int
  find id _ := return (id.asInt64?.filter ((← get).contains ·)).map .int
  create _ := return .null
  update id _ := return (id.asInt64?.map .int).getD .null
  destroy id := do
    modify fun ids => ids.filter fun n => id.asInt64? != some n
    return .null

def model : Model Empty (List Int64) := .ofRepository "Note" "note" "notes" repository

def context : Context Empty (List Int64) :=
  .ofDomain ⟨fun _ => "Note", fun _ => "Note", fun _ _ => true, fun _ _ _ => none, fun _ => none,
    fun _ _ => none⟩

/-- A request that names an id. -/
def request (n : Int64) : Request :=
  (Request.ofSchema "note.destroy(id)").withParam "id" (.ofInt64 n)

def given (n : Int64) : Context Empty (List Int64) :=
  context.withParams (Value.ofMembers (request n).params)

theorem knowsIntegers : repository.KnowsIntegers := by
  constructor <;> intro v w n hv hw <;> simp [repository, hv, hw]

theorem nameText_destroy : Schema.NameText "note.destroy".toList :=
  ⟨List.all_eq_true.mp (by decide +kernel), by decide⟩

theorem least_delivered_twice : ∃ literal : Value Empty,
    (Api.empty.withModel model).Delivers (given Int64.minValue)
      ("note.destroy" ++ "(" ++ "-9223372036854775808" ++ ")") "note.destroy" [literal] ∧
    (Api.empty.withModel model).Delivers (given Int64.minValue)
      ("note.destroy" ++ "(" ++ "id" ++ ")") "note.destroy" [.int Int64.minValue] ∧
    literal.asInt64? = some Int64.minValue ∧ model.SameId literal (.int Int64.minValue) := by
  have hleast : Double.Representable Int64.minValue.toInt := ⟨1, 63, by decide, by decide⟩
  have hnumeral : Numeral.int? "-9223372036854775808".toList = some Int64.minValue.toInt := by
    decide +kernel
  have hparam : Param.isIdentifier "id".toList = true := by decide
  have hnames : (Fields.names (request Int64.minValue).params).Nodup := List.nodup_singleton _
  have hmember : Fields.get? (request Int64.minValue).params "id" =
      some (.ofInt64 Int64.minValue) := rfl
  obtain ⟨literal, hliteral, hnamed, -, hasInt, hsame⟩ :=
    Api.integer_delivered_twice nameText_destroy hnumeral hparam hnames hmember
      (Api.empty.withModel model) context
  exact ⟨literal, hliteral, hnamed, hasInt.mpr hleast, hsame hleast model knowsIntegers⟩

/-- In the schema an integer of 54 bits is another one, and names another note. -/
theorem odd_delivered_as_even :
    (Api.empty.withModel model).Delivers (given 9007199254740993)
      ("note.destroy" ++ "(" ++ "9007199254740993" ++ ")") "note.destroy"
      [.float ⟨0x4340000000000000⟩] ∧
    (Api.empty.withModel model).Delivers (given 9007199254740993)
      ("note.destroy" ++ "(" ++ "id" ++ ")") "note.destroy" [.int 9007199254740993] ∧
    (Value.float ⟨0x4340000000000000⟩ : Value Empty).asInt64? = some 9007199254740992 ∧
    ((model.destroyOne ⟨"note.destroy", [.float ⟨0x4340000000000000⟩], [], context⟩).exec
      [9007199254740992, 9007199254740993]).2 = [9007199254740993] ∧
    ((model.destroyOne ⟨"note.destroy", [.int 9007199254740993], [], context⟩).exec
      [9007199254740992, 9007199254740993]).2 = [9007199254740992] := by
  have hplain : ∀ c ∈ "9007199254740993".toList, Param.IsPlain c :=
    Param.isPlain_of_int? (n := 9007199254740993) (by decide +kernel)
  have htoken : Param.ofToken "9007199254740993".toList = .number ⟨0x4340000000000000⟩ := by
    decide +kernel
  have hcompile := compile_single nameText_destroy (by decide) hplain
  rw [htoken] at hcompile
  have hvalue : (given 9007199254740993).param? "id" = some (.int 9007199254740993) := rfl
  exact ⟨Api.delivers_of_compile hcompile _ _,
    Api.delivers_named nameText_destroy (by decide) _ hvalue, by decide +kernel,
    by decide +kernel, by decide +kernel⟩

end Register

end Host

end FieldQuery
