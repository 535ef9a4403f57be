import FieldQuery.Proofs.Cache.Memory
import FieldQuery.Proofs.Cache.Sequential
import FieldQuery.Proofs.Schema.CallText
import FieldQuery.Proofs.Selection.Codec

/-!
Trees read back from the durable tier. Where the local tier has nothing under a
fingerprint, a look-up can only find what the tree last written there reads
back as.
-/

namespace FieldQuery

namespace CacheHost

variable {σ : Type} {host : CacheHost σ} {valid : σ → Prop} {holds : σ → String → String → Prop}
  {config : CacheConfig} {stored written : QueryMap} {s : σ} {fingerprint : String}

/-- The durable tier holds what was last written. Under the fingerprint, only
what that reads back as may come into the local tier. -/
def Ledger.readBack (written : QueryMap) (fingerprint : String) : Ledger where
  tree other t := other = fingerprint →
    ∃ u, written fingerprint = some u ∧ Selection.decode? u.encode = some t
  text other text := ∃ u, written other = some u ∧ text = u.encode
  tree_of_text := by
    rintro other _ t ⟨u, hu, rfl⟩ hdecode rfl
    exact ⟨u, hu, hdecode⟩

/-- A look-up that finds nothing in the local tier finds what the tree last
written reads back as, or misses. -/
theorem Sound.resolve_written (h : host.Honest valid holds)
    (hs : host.Sound valid holds config (.ofMaps stored written) s)
    (hlocal : (host.read s).lookup? fingerprint = none) :
    ((host.resolve fingerprint).exec s).1 = .error (.cacheMiss fingerprint) ∨
      ∃ t u, ((host.resolve fingerprint).exec s).1 = .ok t ∧ written fingerprint = some u ∧
        Selection.decode? u.encode = some t := by
  have hforgotten : host.Sound valid holds config (.readBack written fingerprint) s := by
    refine ⟨hs.valid, ⟨hs.within.config_eq, hs.within.room, ?_⟩, hs.text⟩
    rintro other t ht rfl
    simp [hlocal] at ht
  rcases hforgotten.resolve h fingerprint with hmiss | ⟨t, hfound, ht⟩
  · exact .inl hmiss
  · obtain ⟨u, hu, hdecode⟩ := ht rfl
    exact .inr ⟨t, u, hfound, hu, hdecode⟩

end CacheHost

open CacheHost Selection in
/-- A selection whose numbers survive comes back from its text exactly, or not
at all if the text nests too deeply; with NaN or an infinity in it, it does not
come back either. So a tree that went to the durable tier is missing once the
local tier has forgotten it, or is found with its numbers read back: as it is,
if they survive. -/
theorem decode_encode_selection (t : Selection) :
    ((∀ x ∈ t.numbers, x.Survives) →
      (t.toJson.nesting ≤ 127 → decode? t.encode = some t) ∧
        (127 < t.toJson.nesting → decode? t.encode = none)) ∧
    (∀ x ∈ t.numbers, x.isFinite = false → decode? t.encode = none) ∧
    ∀ {σ : Type} {host : CacheHost σ} {valid : σ → Prop} {holds : σ → String → String → Prop}
      {s : σ}, host.Fallible valid holds → valid s → (host.read s).entries = [] →
      (∀ other text, ¬ holds s ((host.read s).config.keyPrefix ++ other) text) →
      ∀ (requests : List CacheRequest) (fingerprint : String),
        host.writtenAll s .empty requests fingerprint = some t →
        (host.read (host.afterAll s requests)).lookup? fingerprint = none →
        ((host.resolve fingerprint).exec (host.afterAll s requests)).1 =
            .error (.cacheMiss fingerprint) ∨
          ∃ u, ((host.resolve fingerprint).exec (host.afterAll s requests)).1 = .ok u ∧
            reread? t = some u ∧ t.toJson.nesting ≤ 127 ∧
            ((∀ x ∈ t.numbers, x.Survives) → u = t) := by
  refine ⟨fun ht => ⟨fun hnesting => ?_, fun hnesting => ?_⟩, fun x hx hfinite => ?_, ?_⟩
  · rw [decode?_encode_of_survives ht]
    exact if_pos hnesting
  · rw [decode?_encode_of_survives ht]
    exact if_neg (Nat.not_le_of_lt hnesting)
  · rw [decode?_encode, reread?_of_not_finite hx hfinite, ite_self]
  · intro σ host valid holds s h hs hempty hnothing requests fingerprint hwritten hlocal
    have hstart : host.Sound valid holds (host.read s).config (.ofMaps .empty .empty) s :=
      .of_fresh hs hempty hnothing
    have hafter := hstart.afterAll_maps h requests
    rcases hafter.resolve_written h.toHonest hlocal with hmiss | ⟨u, v, hfound, hv, hdecode⟩
    · exact .inl hmiss
    · obtain rfl : t = v := Option.some.inj (hwritten.symm.trans hv)
      rw [decode?_encode, Option.ite_none_right_eq_some] at hdecode
      obtain ⟨hnesting, hreread⟩ := hdecode
      refine .inr ⟨u, hfound, hreread, hnesting, fun ht => ?_⟩
      exact Option.some.inj (hreread.symm.trans (reread?_eq t ht))

/-! Numbers read back. -/

/-- Where the text of a number is a fraction, its digits are gathered and scaled
again. -/
theorem Double.reread?_of_fraction {x y : Double} {hx : x.isFinite = true} {hy : y.isFinite = true}
    {whole fraction : List Char} {significand : Nat} {exponent : Int}
    (hx' : JsonNumber.ofDouble? x = some (.float ⟨x, hx⟩))
    (hy' : JsonNumber.ofDouble? y = some (.float ⟨y, hy⟩))
    (htaken : (Json.takeLexeme? (x.text Json.numberLayout).toList).map (·.1) =
      some ⟨false, whole, some fraction, none⟩)
    (hgathered : Json.Lexeme.gathered ⟨false, whole, some fraction, none⟩ =
      ⟨significand, exponent⟩)
    (hscaled : Json.scaleDecimal (.ofNat significand) exponent = some y) :
    x.reread? = some y := by
  have hvalue : Json.Lexeme.value? ⟨false, whole, some fraction, none⟩ =
      some (.float ⟨y, hy⟩) := by
    simp [Json.Lexeme.value?, hgathered, hscaled, hy']
  obtain ⟨⟨lexeme, rest⟩, hlexeme, rfl⟩ := Option.map_eq_some_iff.mp htaken
  simp [reread?, hx', Json.reread, Json.numberText, hlexeme, hvalue, JsonNumber.toDouble]

def oneAndHalf : Double := ⟨0x3ff8000000000000⟩

theorem survives_oneAndHalf : oneAndHalf.Survives := by
  have hscaled : Json.scaleDecimal (.ofNat 15) (-1) = some oneAndHalf := by
    rw [Json.scaleDecimal]
    decide +kernel
  have htaken : (Json.takeLexeme? (oneAndHalf.text Json.numberLayout).toList).map (·.1) =
      some ⟨false, "1".toList, some "5".toList, none⟩ := by decide +kernel
  exact Double.survives_iff.mpr (Double.reread?_of_fraction rfl rfl htaken rfl hscaled)

/-- A number of 16 digits, and the next one. -/
def distance : Double := ⟨0x408e353eccfa2558⟩

def nextDistance : Double := ⟨0x408e353eccfa2559⟩

/-- The significand does not fit in 53 bits and is rounded before it is scaled,
so two roundings lead to the neighbour. -/
theorem reread?_distance : distance.reread? = some nextDistance := by
  have hscaled : Json.scaleDecimal (.ofNat 9666556644003531) (-13) = some nextDistance := by
    rw [Json.scaleDecimal]
    decide +kernel
  have htaken : (Json.takeLexeme? (distance.text Json.numberLayout).toList).map (·.1) =
      some ⟨false, "966".toList, some "6556644003531".toList, none⟩ := by decide +kernel
  exact Double.reread?_of_fraction rfl rfl htaken rfl hscaled

/-- A call with the number as its parameter. -/
def near (x : Double) : Selection := [(Call.ofName "near").withParams [.number x]]

theorem compile_near (digits : String) {x : Double} (hne : digits.toList ≠ [])
    (hdigits : (digits.toList.all fun c => decide (Param.IsNumeric c)) = true)
    (htoken : Param.ofToken digits.toList = .number x) :
    compile ("near" ++ "(" ++ digits ++ ")") = .ok (near x) := by
  have hname : Schema.NameText "near".toList := ⟨List.all_eq_true.mp (by decide +kernel), by decide⟩
  have hplain : ∀ c ∈ digits.toList, Param.IsPlain c := fun c hc =>
    (of_decide_eq_true (List.all_eq_true.mp hdigits c hc)).isPlain
  rw [compile_single hname hne hplain, htoken]
  rfl

theorem compile_near_oneAndHalf : compile "near(1.5)" = .ok (near oneAndHalf) :=
  compile_near "1.5" (by decide) (by decide) (by decide +kernel)

theorem compile_near_distance : compile "near(966.6556644003531)" = .ok (near distance) :=
  compile_near "966.6556644003531" (by decide) (by decide) (by decide +kernel)

/-- A tree with a number is found again, one with NaN does not come back. -/
theorem near_read_back :
    Selection.decode? (near oneAndHalf).encode = some (near oneAndHalf) ∧
      Selection.decode? (near .nan).encode = none ∧
      (((MemoryHost.host.resolve "x").exec
          (MemoryHost.host.afterAll (.fresh []) [.store "x" "near(1.5)", .clear])).1 =
            .error (.cacheMiss "x") ∨
        ∃ u, ((MemoryHost.host.resolve "x").exec
            (MemoryHost.host.afterAll (.fresh []) [.store "x" "near(1.5)", .clear])).1 = .ok u ∧
          Selection.reread? (near oneAndHalf) = some u ∧ (near oneAndHalf).toJson.nesting ≤ 127 ∧
          ((∀ x ∈ (near oneAndHalf).numbers, x.Survives) → u = near oneAndHalf)) := by
  obtain ⟨hback, -, hfound⟩ := decode_encode_selection (near oneAndHalf)
  obtain ⟨-, hnone, -⟩ := decode_encode_selection (near .nan)
  have hsurvives : ∀ x ∈ (near oneAndHalf).numbers, x.Survives := by
    simpa [near, Call.numbers, Call.args, Call.ofName, Call.withParams, Param.number?] using
      survives_oneAndHalf
  refine ⟨(hback hsurvives).1 ?_, hnone .nan ?_ (by decide), ?_⟩
  · decide
  · simp [near, Call.numbers, Call.args, Call.ofName, Call.withParams, Param.number?]
  · refine hfound MemoryHost.fallible (MemoryHost.lasting_fresh []) rfl
      (fun _ _ => MemoryHost.contents_fresh_ne _ _ _) _ "x" ?_ ?_
    · simp only [CacheHost.writtenAll, CacheHost.writtenAfter, compile_near_oneAndHalf]
      rfl
    · simp only [CacheHost.afterAll, List.foldl_cons, List.foldl_nil,
        CacheHost.after_store_ok compile_near_oneAndHalf]
      rfl

/-- A number that does not survive makes another tree of a compiled one. -/
theorem rounded_tree_resolved :
    compile "near(966.6556644003531)" = .ok (near distance) ∧
      ((MemoryHost.host.resolve "x").exec
        (MemoryHost.host.afterAll (.fresh []) [.store "x" "near(966.6556644003531)", .clear])).1 =
          .ok (near nextDistance) ∧
      near nextDistance ≠ near distance := by
  have hdiffers : near nextDistance ≠ near distance := by
    have hnumbers : nextDistance ≠ distance := by decide
    simpa [near, Call.ofName, Call.withParams] using hnumbers
  refine ⟨compile_near_distance, ?_, hdiffers⟩
  have hafter : MemoryHost.host.afterAll (.fresh [])
      [.store "x" "near(966.6556644003531)", .clear] =
        ⟨⟨⟨1, 60, "query-"⟩, [], 0, 0, 0⟩, ⟨[("query-x", (near distance).encode, 60)]⟩, []⟩ := by
    simp only [CacheHost.afterAll, List.foldl_cons, List.foldl_nil,
      CacheHost.after_store_ok compile_near_distance]
    rfl
  have hdecode : Selection.decode? (near distance).encode = some (near nextDistance) := by
    have hreread : Selection.reread? (near distance) = some (near nextDistance) := by
      simp [near, Selection.reread?, Selection.rereadCall?, Selection.rereadParams?,
        Selection.rereadNested?, Param.reread?, reread?_distance, Call.ofName, Call.withParams]
    rw [Selection.decode?_encode, hreread]
    rfl
  rw [hafter, CacheHost.exec_resolve_promoted rfl rfl rfl hdecode]
  rfl

end FieldQuery
