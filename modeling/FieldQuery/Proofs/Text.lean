import FieldQuery.Text.Blank
import FieldQuery.Text.Split
import Mathlib.Data.List.DropRight
import Mathlib.Data.List.TakeWhile

/-!
Blanks, trimming and splitting. Trimmed text begins and ends without a blank,
and pieces without the separator are what their joined text splits into.
-/

namespace FieldQuery.Text

/-! Blanks. -/

/-- Code points of all blanks. -/
def blankCodes : List Nat :=
  [0x9, 0xa, 0xb, 0xc, 0xd, 0x20, 0x85, 0xa0, 0x1680, 0x2000, 0x2001, 0x2002, 0x2003, 0x2004,
    0x2005, 0x2006, 0x2007, 0x2008, 0x2009, 0x200a, 0x2028, 0x2029, 0x202f, 0x205f, 0x3000]

theorem toNat_mem_blankCodes {c : Char} (h : isBlank c = true) : c.toNat ∈ blankCodes := by
  simp [isBlank, blankCodes] at h ⊢
  omega

section

variable {p : Char → Bool} {c : Char}

/-- What no code point of a blank has, no blank has. -/
theorem eq_false_of_isBlank (hcodes : ∀ n ∈ blankCodes, p (Char.ofNat n) = false)
    (h : isBlank c = true) : p c = false := by
  have hc := hcodes c.toNat (toNat_mem_blankCodes h)
  rwa [Char.ofNat_toNat] at hc

theorem isBlank_eq_false (hcodes : ∀ n ∈ blankCodes, p (Char.ofNat n) = false)
    (h : p c = true) : isBlank c = false := by
  rw [Bool.eq_false_iff]
  intro hblank
  rw [eq_false_of_isBlank hcodes hblank] at h
  cases h

end

theorem trimStart_append {before : List Char} (h : ∀ c ∈ before, isBlank c = true)
    (text : List Char) : trimStart (before ++ text) = trimStart text :=
  List.dropWhile_append_of_pos h

theorem trimStart_cons {c : Char} (h : isBlank c = false) (text : List Char) :
    trimStart (c :: text) = c :: text := by
  simp [trimStart, h]

theorem trimStart_eq_nil {text : List Char} (h : ∀ c ∈ text, isBlank c = true) :
    trimStart text = [] :=
  List.dropWhile_eq_nil_iff.mpr h

/-- The blanks that trimming takes away. -/
theorem exists_blank_append_trimStart (text : List Char) :
    ∃ before, (∀ c ∈ before, isBlank c = true) ∧ before ++ trimStart text = text :=
  ⟨text.takeWhile isBlank, fun _ hc => List.mem_takeWhile_imp hc, List.takeWhile_append_dropWhile⟩

/-! Trimming. -/

theorem trimEnd_eq (text : List Char) : trimEnd text = text.rdropWhile isBlank := rfl

theorem trim_subset (text : List Char) : trim text ⊆ text := by
  have hend : trim text ⊆ trimStart text := (List.rdropWhile_prefix isBlank _).subset
  exact List.Subset.trans hend (List.dropWhile_sublist isBlank).subset

theorem trim_blank_cons {c : Char} (h : isBlank c = true) (text : List Char) :
    trim (c :: text) = trim text := by
  simp [trim, trimStart, h]

/-- Text without a blank at either end is trimmed. -/
theorem trim_eq_self {text : List Char} (hfirst : ∀ c ∈ text.head?, isBlank c = false)
    (hlast : ∀ c ∈ text.getLast?, isBlank c = false) : trim text = text := by
  have hstart : trimStart text = text := by
    cases text with
    | nil => rfl
    | cons c tail => exact trimStart_cons (hfirst c rfl) tail
  rw [trim, hstart, trimEnd_eq, List.rdropWhile_eq_self_iff]
  intro hne
  simp [hlast _ (List.getLast?_eq_some_getLast hne)]

theorem trim_of_no_blank {text : List Char} (h : ∀ c ∈ text, isBlank c = false) :
    trim text = text :=
  trim_eq_self (fun c hc => h c (List.mem_of_mem_head? hc))
    fun c hc => h c (List.mem_of_getLast? hc)

@[simp] theorem trim_trim (text : List Char) : trim (trim text) = trim text := by
  apply trim_eq_self
  · intro c hc
    obtain ⟨rest, hrest⟩ := List.rdropWhile_prefix isBlank (trimStart text)
    have hhead : c ∈ (trimStart text).head? := by
      rw [← hrest]
      exact List.mem_head?_append_of_mem_head? hc
    have hnot := List.head?_dropWhile_not isBlank text
    rw [trimStart] at hhead
    simpa [Option.mem_def.mp hhead] using hnot
  · intro c hc
    rw [trim, trimEnd_eq] at hc
    have hne : (trimStart text).rdropWhile isBlank ≠ [] := by
      rintro hnil
      simp [hnil] at hc
    rw [List.getLast?_eq_some_getLast hne] at hc
    obtain rfl := Option.some.inj hc
    simpa using List.rdropWhile_last_not isBlank (trimStart text) hne

theorem all_isBlank_of_trim_eq_nil {text : List Char} (h : trim text = []) :
    ∀ c ∈ text, isBlank c = true := by
  rw [trim, trimEnd_eq, List.rdropWhile_eq_nil_iff] at h
  intro c hc
  rw [← List.takeWhile_append_dropWhile (p := isBlank) (l := text), List.mem_append] at hc
  rcases hc with hc | hc
  · exact List.mem_takeWhile_imp hc
  · exact h c hc

/-! Splitting. -/

theorem split_ne_nil (separator : Char) (text : List Char) : split separator text ≠ [] := by
  induction text with
  | nil => simp [split]
  | cons c rest ih =>
      rw [split]
      split
      · simp
      · split <;> simp

theorem split_of_not_mem {separator : Char} {text : List Char} (h : separator ∉ text) :
    split separator text = [text] := by
  induction text with
  | nil => rfl
  | cons c rest ih =>
      rw [List.mem_cons, not_or] at h
      rw [split, if_neg (Ne.symm h.1), ih h.2]

theorem split_append {separator : Char} {piece : List Char} (h : separator ∉ piece)
    (text : List Char) :
    split separator (piece ++ separator :: text) = piece :: split separator text := by
  induction piece with
  | nil => simp [split]
  | cons c rest ih =>
      rw [List.mem_cons, not_or] at h
      rw [List.cons_append, split, if_neg (Ne.symm h.1), ih h.2]

/-- Text is split on both sides of a separator apart. -/
theorem split_append_split (separator : Char) (before after : List Char) :
    split separator (before ++ separator :: after) =
      split separator before ++ split separator after := by
  induction before with
  | nil => simp [split]
  | cons c rest ih =>
      rw [List.cons_append, split, split, ih]
      split
      next => rfl
      next =>
        cases hrest : split separator rest with
        | nil => exact absurd hrest (split_ne_nil separator rest)
        | cons piece pieces => rfl

/-- Pieces are parts of the text without the separator. -/
theorem mem_of_mem_split {separator : Char} {text piece : List Char}
    (hpiece : piece ∈ split separator text) {c : Char} (hc : c ∈ piece) :
    c ∈ text ∧ c ≠ separator := by
  induction text generalizing piece with
  | nil =>
      obtain rfl := List.mem_singleton.mp hpiece
      simp at hc
  | cons d rest ih =>
      rw [split] at hpiece
      split at hpiece
      next =>
        rcases List.mem_cons.mp hpiece with rfl | hpiece
        · simp at hc
        · exact ⟨List.mem_cons_of_mem d (ih hpiece hc).1, (ih hpiece hc).2⟩
      next hne =>
        split at hpiece
        next hsplit => exact absurd hsplit (split_ne_nil separator rest)
        next first pieces hsplit =>
          rcases List.mem_cons.mp hpiece with rfl | hpiece
          · rcases List.mem_cons.mp hc with rfl | hc
            · exact ⟨List.mem_cons_self, hne⟩
            · have hfirst := ih (by rw [hsplit]; exact List.mem_cons_self) hc
              exact ⟨List.mem_cons_of_mem d hfirst.1, hfirst.2⟩
          · have hlater := ih (by rw [hsplit]; exact List.mem_cons_of_mem first hpiece) hc
            exact ⟨List.mem_cons_of_mem d hlater.1, hlater.2⟩

/-- Around a separator there are two pieces at least. -/
theorem exists_split_eq_of_mem {separator : Char} {text : List Char} (h : separator ∈ text) :
    ∃ first second rest, split separator text = first :: second :: rest := by
  obtain ⟨before, after, rfl, hbefore⟩ := List.eq_append_cons_of_mem h
  obtain ⟨second, rest, hrest⟩ := List.exists_cons_of_ne_nil (split_ne_nil separator after)
  exact ⟨before, second, rest, by rw [split_append hbefore, hrest]⟩

/-! Joining. -/

theorem toList_join_cons (separator piece next : String) (pieces : List String) :
    (join separator (piece :: next :: pieces)).toList =
      piece.toList ++ (separator.toList ++ (join separator (next :: pieces)).toList) := by
  simp [join]

theorem mem_join {separator : String} {pieces : List String} {c : Char}
    (h : c ∈ (join separator pieces).toList) :
    c ∈ separator.toList ∨ ∃ piece ∈ pieces, c ∈ piece.toList := by
  induction pieces with
  | nil => simp [join] at h
  | cons piece pieces ih =>
      cases pieces with
      | nil => exact Or.inr ⟨piece, List.mem_cons_self, h⟩
      | cons next pieces =>
          rw [toList_join_cons, List.mem_append, List.mem_append] at h
          rcases h with h | h | h
          · exact Or.inr ⟨piece, List.mem_cons_self, h⟩
          · exact Or.inl h
          · rcases ih h with h | ⟨p, hp, hc⟩
            · exact Or.inl h
            · exact Or.inr ⟨p, List.mem_cons_of_mem piece hp, hc⟩

theorem join_append (separator : String) {pieces more : List String} (h : pieces ≠ [])
    (hmore : more ≠ []) :
    join separator (pieces ++ more) = join separator pieces ++ separator ++ join separator more := by
  induction pieces with
  | nil => exact absurd rfl h
  | cons piece pieces ih =>
      cases pieces with
      | nil =>
          obtain ⟨next, rest, rfl⟩ := List.exists_cons_of_ne_nil hmore
          rfl
      | cons next pieces =>
          have hrest := ih (List.cons_ne_nil next pieces)
          change piece ++ separator ++ join separator (next :: pieces ++ more) =
            piece ++ separator ++ join separator (next :: pieces) ++ separator ++
              join separator more
          rw [hrest]
          simp only [String.append_assoc]

/-! Segments of dotted names. -/

/-- The parts of a name between its dots. -/
def segments (name : String) : List String := (split '.' name.toList).map String.ofList

theorem segments_ne_nil (name : String) : segments name ≠ [] := by
  simpa [segments] using split_ne_nil '.' name.toList

theorem length_segments_pos (name : String) : 0 < (segments name).length :=
  List.length_pos_iff.mpr (segments_ne_nil name)

theorem segments_append (before after : String) :
    segments (before ++ "." ++ after) = segments before ++ segments after := by
  have htext : (before ++ "." ++ after).toList = before.toList ++ '.' :: after.toList := by
    simp [String.toList_append]
  rw [segments, htext, split_append_split, List.map_append]
  rfl

theorem segments_of_not_mem {name : String} (h : '.' ∉ name.toList) : segments name = [name] := by
  rw [segments, split_of_not_mem h, List.map_singleton, String.ofList_toList]

theorem dot_not_mem_of_mem_segments {name segment : String} (h : segment ∈ segments name) :
    '.' ∉ segment.toList := by
  obtain ⟨piece, hpiece, rfl⟩ := List.mem_map.mp h
  rw [String.toList_ofList]
  exact fun hdot => (mem_of_mem_split hpiece hdot).2 rfl

theorem segments_join {pieces : List String} (hne : pieces ≠ [])
    (h : ∀ piece ∈ pieces, '.' ∉ piece.toList) : segments (join "." pieces) = pieces := by
  induction pieces with
  | nil => exact absurd rfl hne
  | cons piece pieces ih =>
      obtain ⟨hpiece, hpieces⟩ := List.forall_mem_cons.mp h
      cases pieces with
      | nil => exact segments_of_not_mem hpiece
      | cons next pieces =>
          have hrest := ih (List.cons_ne_nil next pieces) hpieces
          change segments (piece ++ "." ++ join "." (next :: pieces)) = _
          rw [segments_append, segments_of_not_mem hpiece, hrest]
          rfl

theorem toList_join_split (text : List Char) :
    (join "." ((split '.' text).map String.ofList)).toList = text := by
  induction text with
  | nil => rfl
  | cons c rest ih =>
      obtain ⟨piece, pieces, hsplit⟩ := List.exists_cons_of_ne_nil (split_ne_nil '.' rest)
      rw [hsplit] at ih
      rw [split, hsplit]
      split
      next hc =>
        rw [List.map_cons, List.map_cons, toList_join_cons, ← List.map_cons, ih, hc]
        simp
      next =>
        cases pieces with
        | nil => simpa [join] using ih
        | cons next pieces =>
            rw [List.map_cons, List.map_cons, toList_join_cons] at ih ⊢
            simpa using ih

/-- A name is what its segments are joined to. -/
theorem join_segments (name : String) : join "." (segments name) = name :=
  String.toList_inj.mp (toList_join_split name.toList)

/-- A name can be cut before each segment but the first. -/
theorem exists_of_cut {name : String} {size : Nat} (hpos : 0 < size)
    (hsize : size < (segments name).length) :
    ∃ tail, name = join "." ((segments name).take size) ++ "." ++ tail ∧
      (segments name).drop size = segments tail := by
  have htake : (segments name).take size ≠ [] := by
    simp [List.take_eq_nil_iff, segments_ne_nil]
    omega
  have hdrop : (segments name).drop size ≠ [] := by
    simp [List.drop_eq_nil_iff]
    omega
  refine ⟨join "." ((segments name).drop size), ?_, ?_⟩
  · rw [← join_append "." htake hdrop, List.take_append_drop, join_segments]
  · rw [segments_join hdrop]
    exact fun piece hpiece => dot_not_mem_of_mem_segments (List.mem_of_mem_drop hpiece)

/-- The first segments of a name, joined again, are that many segments. -/
theorem length_segments_take {name : String} {size : Nat} (hpos : 0 < size)
    (hsize : size < (segments name).length) :
    (segments (join "." ((segments name).take size))).length = size := by
  have htake : (segments name).take size ≠ [] := by
    rw [ne_eq, List.take_eq_nil_iff, not_or]
    exact ⟨Nat.ne_of_gt hpos, segments_ne_nil name⟩
  have hplain : ∀ piece ∈ (segments name).take size, '.' ∉ piece.toList := fun piece hpiece =>
    dot_not_mem_of_mem_segments (List.mem_of_mem_take hpiece)
  rw [segments_join htake hplain, List.length_take]
  omega

/-- Of two beginnings of a name before a dot, the longer one goes on from the
shorter one after a dot. -/
theorem exists_of_longer {head tail longer rest : String}
    (h : head ++ "." ++ tail = longer ++ "." ++ rest) (hlength : head.length < longer.length) :
    ∃ between, longer = head ++ "." ++ between := by
  have htext : head.toList ++ '.' :: tail.toList = longer.toList ++ '.' :: rest.toList := by
    simpa [String.toList_append] using congrArg String.toList h
  simp only [← String.length_toList] at hlength
  rcases List.append_eq_append_iff.mp htext with ⟨more, hlonger, hmore⟩ | ⟨more, hhead, -⟩
  · cases more with
    | nil => simp [hlonger] at hlength
    | cons c more =>
        obtain rfl : '.' = c := by simpa using (List.cons.inj hmore).1
        refine ⟨String.ofList more, String.toList_inj.mp ?_⟩
        simp [hlonger, String.toList_append]
  · rw [hhead, List.length_append] at hlength
    omega

theorem cut_unique {head tail head' tail' : String}
    (h : head ++ "." ++ tail = head' ++ "." ++ tail') (hlength : head.length = head'.length) :
    head = head' ∧ tail = tail' := by
  have htext : head.toList ++ '.' :: tail.toList = head'.toList ++ '.' :: tail'.toList := by
    simpa [String.toList_append] using congrArg String.toList h
  have hlengths : head.toList.length = head'.toList.length := by
    rwa [String.length_toList, String.length_toList]
  obtain ⟨hhead, htail⟩ := List.append_inj htext hlengths
  exact ⟨String.toList_inj.mp hhead, String.toList_inj.mp (List.cons.inj htail).2⟩

/-- A beginning before a dot of a name that goes on from a point is the point,
or shorter, or goes on from the point itself. -/
theorem cut_cases {point name head tail : String}
    (h : point ++ "." ++ name = head ++ "." ++ tail) :
    head = point ∨ (∃ between, point = head ++ "." ++ between) ∨
      ∃ between, head = point ++ "." ++ between ∧ name = between ++ "." ++ tail := by
  rcases Nat.lt_trichotomy head.length point.length with hshort | hsame | hlong
  · exact .inr (.inl (exists_of_longer h.symm hshort))
  · exact .inl (cut_unique h hsame.symm).1.symm
  · obtain ⟨between, rfl⟩ := exists_of_longer h hlong
    refine .inr (.inr ⟨between, rfl, ?_⟩)
    apply (String.append_right_inj (point ++ ".")).mp
    rw [h]
    simp only [String.append_assoc]

/-- Joined by commas and spaces, pieces without commas are split into
themselves, with the spaces left in front of all but the first. -/
theorem split_join {piece : String} {pieces : List String}
    (h : ∀ p ∈ piece :: pieces, ',' ∉ p.toList) :
    split ',' (join ", " (piece :: pieces)).toList =
      piece.toList :: pieces.map fun p => ' ' :: p.toList := by
  induction pieces generalizing piece with
  | nil => exact split_of_not_mem (h piece List.mem_cons_self)
  | cons next pieces ih =>
      have hrest := ih fun p hp => h p (List.mem_cons_of_mem piece hp)
      have hjoin : (join ", " (piece :: next :: pieces)).toList =
          piece.toList ++ ',' :: ' ' :: (join ", " (next :: pieces)).toList :=
        toList_join_cons _ _ _ _
      rw [hjoin, split_append (h piece List.mem_cons_self), split, if_neg (by decide), hrest]
      rfl

end FieldQuery.Text
