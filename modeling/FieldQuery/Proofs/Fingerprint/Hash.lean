import FieldQuery.Fingerprint
import FieldQuery.Proofs.Json.Numeral
import Mathlib.Algebra.BigOperators.Fin
import Mathlib.Data.Int.ModEq

/-!
The hash behind fingerprints. The UTF-16 units of a text are the digits of a
number to the base 31, and the hash is the signed word of 32 bits that is
congruent to this number. The shift, the difference and the sum of every step
wrap, but they wrap to what one reduction at the end would give.
-/

namespace FieldQuery

/-- The decimal text of an integer is read as that integer. -/
theorem Numeral.int?_toString (n : Int) : Numeral.int? (toString n).toList = some n := by
  have hdigits := digits_toDigits n.natAbs
  have hsign : takeSign (toString n).toList = (decide (n < 0), Nat.toDigits 10 n.natAbs) := by
    rw [Json.toList_toString_int]
    by_cases hn : n < 0
    · simp [hn, takeSign]
    · have hhead := hdigits.head_ne_sign []
      obtain ⟨first, tail, hcons⟩ := List.exists_cons_of_ne_nil hdigits.ne_nil
      rw [hcons] at hhead ⊢
      obtain ⟨hminus, hplus⟩ := hhead first rfl
      simp [hn, takeSign, hminus, hplus]
  have hall : (Nat.toDigits 10 n.natAbs).all Char.isDigit = true :=
    List.all_eq_true.mpr hdigits.isDigit
  simp only [int?, hsign, digitsValue_toDigits, decide_eq_true_eq]
  rw [if_pos ⟨hdigits.ne_nil, hall⟩]
  congr 1
  split <;> omega

namespace Fingerprint

/-- The UTF-16 units of a character: its code if that fits in a unit, or two
surrogates for the twenty bits that tell it among the characters beyond. -/
inductive CharUnits (c : Char) : List Nat → Prop
  | single (hcode : c.toNat < 0x10000) : CharUnits c [c.toNat]
  | surrogates {high low : Nat} (hhigh : high < 0x400) (hlow : low < 0x400)
      (hcode : c.toNat = 0x10000 + high * 0x400 + low) :
      CharUnits c [0xd800 + high, 0xdc00 + low]

/-- The UTF-16 units of a text. -/
inductive Utf16 : List Char → List Nat → Prop
  | nil : Utf16 [] []
  | cons {c : Char} {text : List Char} {units rest : List Nat} (hchar : CharUnits c units)
      (htext : Utf16 text rest) : Utf16 (c :: text) (units ++ rest)

theorem charUnits_iff {c : Char} {found : List Nat} : CharUnits c found ↔ found = units c := by
  have hcode : c.toNat < 0x110000 := by
    have hvalid := c.valid
    simp only [UInt32.isValidChar, Nat.isValidChar] at hvalid
    change c.val.toNat < _
    omega
  constructor
  · rintro (hsmall | @⟨high, low, hhigh, hlow, hpair⟩)
    · rw [units, if_pos hsmall]
    · have hlarge : ¬ c.toNat < 0x10000 := by omega
      have hdiv : (c.toNat - 0x10000) / 0x400 = high := by omega
      have hmod : (c.toNat - 0x10000) % 0x400 = low := by omega
      rw [units, if_neg hlarge, hdiv, hmod]
  · rintro rfl
    rw [units]
    split
    next hsmall => exact .single hsmall
    next hlarge => exact .surrogates (by omega) (by omega) (by omega)

/-- Every text has its units, and no others. -/
theorem utf16_iff {text : List Char} {found : List Nat} : Utf16 text found ↔ found = units16 text := by
  constructor
  · intro h
    induction h with
    | nil => rfl
    | cons hchar _ ih => rw [ih, charUnits_iff.mp hchar, units16, units16, List.flatMap_cons]
  · rintro rfl
    induction text with
    | nil => exact .nil
    | cons c text ih => exact .cons (charUnits_iff.mpr rfl) ih

theorem Utf16.lt {text : List Char} {units : List Nat} (h : Utf16 text units) :
    ∀ unit ∈ units, unit < 2 ^ 16 := by
  induction h with
  | nil => simp
  | cons hchar _ ih =>
      refine List.forall_mem_append.mpr ⟨?_, ih⟩
      rcases hchar with hsmall | ⟨hhigh, hlow, -⟩
      · simpa using hsmall
      · simp only [List.forall_mem_cons, List.not_mem_nil, false_implies, implies_true, and_true]
        omega

/-- The number whose digits to the base 31 are the units, the first of them in
the highest place. -/
def value (units : List Nat) : Int :=
  ∑ i : Fin units.length, (units[i] : Int) * 31 ^ (units.length - 1 - i)

@[simp] theorem value_nil : value [] = 0 := by simp [value]

theorem value_cons (unit : Nat) (rest : List Nat) :
    value (unit :: rest) = unit * 31 ^ rest.length + value rest := by
  change ∑ i : Fin (rest.length + 1), ((unit :: rest)[i] : Int) * 31 ^ (rest.length + 1 - 1 - i) = _
  rw [Fin.sum_univ_succ]
  congr 1
  refine Finset.sum_congr rfl fun i _ => ?_
  have hplace : rest.length + 1 - 1 - (i.succ : Nat) = rest.length - 1 - i := by
    rw [Fin.val_succ]
    omega
  rw [hplace]
  rfl

/-- A step of the hash multiplies by 31, adds the unit, and reduces. -/
theorem toInt_step (hash : Int32) (unit : Nat) :
    (step hash unit).toInt = Int.bmod (hash.toInt * 31 + unit) (2 ^ 32) := by
  have hshift : hash <<< 5 = hash * 32 := by
    apply Int32.toBitVec_inj.mp
    exact BitVec.shiftLeft_eq_mul_twoPow hash.toBitVec 5
  have hunit : (Int32.ofNat unit).toInt = Int.bmod unit (2 ^ 32) := Int32.toInt_ofNat'
  have hbase : (32 : Int32).toInt = 32 := rfl
  rw [step, hshift, Int32.toInt_add, Int32.toInt_sub, Int32.toInt_mul, hunit, hbase,
    Int.bmod_sub_bmod, Int.add_bmod_bmod, Int.bmod_add_bmod]
  congr 1
  ring

/-- Reducing at each step gives what reducing once at the end gives. -/
theorem toInt_foldl_step (units : List Nat) (hash : Int32) :
    (units.foldl step hash).toInt =
      Int.bmod (hash.toInt * 31 ^ units.length + value units) (2 ^ 32) := by
  induction units generalizing hash with
  | nil => simp
  | cons unit rest ih =>
      rw [List.foldl_cons, ih, toInt_step, value_cons, List.length_cons]
      have hreduce : Int.bmod (hash.toInt * 31 + unit) (2 ^ 32) * 31 ^ rest.length ≡
          (hash.toInt * 31 + unit) * 31 ^ rest.length [ZMOD (2 ^ 32 : Nat)] :=
        Int.ModEq.mul_right _ Int.bmod_emod
      have hsame := (hreduce.add_right (value rest))
      rw [← Int.emod_bmod, hsame, Int.emod_bmod]
      congr 1
      ring

theorem toInt_hash (text : String) :
    (hash text).toInt = Int.bmod (value (units16 text.toList)) (2 ^ 32) := by
  have hrun := toInt_foldl_step (units16 text.toList) 0
  rwa [Int32.toInt_zero, zero_mul, zero_add] at hrun

theorem toInt_hash_append (before text : String) :
    (hash (before ++ text)).toInt =
      Int.bmod ((hash before).toInt * 31 ^ (units16 text.toList).length +
        value (units16 text.toList)) (2 ^ 32) := by
  have hunits : units16 (before ++ text).toList = units16 before.toList ++ units16 text.toList := by
    rw [String.toList_append, units16, List.flatMap_append]
    rfl
  rw [hash, hunits, List.foldl_append]
  exact toInt_foldl_step (units16 text.toList) (hash before)

theorem value_append (units more : List Nat) :
    value (units ++ more) = value units * 31 ^ more.length + value more := by
  induction units with
  | nil => simp
  | cons unit rest ih =>
      rw [List.cons_append, value_cons, value_cons, ih, List.length_append, pow_add]
      ring

/-- Every number has a text whose units are its digits to the base 31. -/
theorem exists_value_eq (n : Nat) : ∃ text, value (units16 text) = n := by
  induction n using Nat.strongRecOn with
  | ind n ih =>
      by_cases hn : n = 0
      · exact ⟨[], by rw [hn]; exact value_nil⟩
      · obtain ⟨text, htext⟩ := ih (n / 31) (by omega)
        have hdigit : n % 31 < 31 := Nat.mod_lt n (by decide)
        have hvalid : (n % 31).isValidChar := Or.inl (by omega)
        have hcode : (Char.ofNat (n % 31)).toNat = n % 31 := by
          rw [Char.ofNat, dif_pos hvalid]
          rfl
        have hunits : units (Char.ofNat (n % 31)) = [n % 31] := by
          rw [units, hcode, if_pos (by omega)]
        have hvalue : value [n % 31] = (n % 31 : Nat) := by
          simp [value_cons]
        refine ⟨text ++ [Char.ofNat (n % 31)], ?_⟩
        rw [units16, List.flatMap_append, List.flatMap_singleton, hunits, value_append, hvalue]
        change value (units16 text) * 31 ^ 1 + _ = _
        rw [htext]
        omega

/-- Every signed word of 32 bits is the hash of some text. -/
theorem exists_hash_eq (n : Int32) : ∃ text, hash text = n := by
  obtain ⟨text, htext⟩ := exists_value_eq (n.toInt % 2 ^ 32).toNat
  refine ⟨String.ofList text, Int32.toInt_inj.mp ?_⟩
  have hpositive : 0 ≤ n.toInt % 2 ^ 32 := Int.emod_nonneg _ (by decide)
  rw [toInt_hash, String.toList_ofList, htext, Int.toNat_of_nonneg hpositive]
  have hself : Int.bmod n.toInt (2 ^ 32) = n.toInt := n.toInt_bmod_size
  exact (Int.emod_bmod n.toInt (2 ^ 32)).trans hself

/-- The hash of a text is the signed word of 32 bits that is congruent to the
number whose digits to the base 31 are the UTF-16 units of the text. No step on
the way loses more than multiples of `2 ^ 32`. So the hash of a text behind
another is told by their hashes, and the fingerprint, which is read back as the
hash, tells texts apart just as the hash does. -/
theorem hash_of_utf16 {text : String} {units : List Nat} (h : Utf16 text.toList units) :
    (hash text).toInt =
      Int.bmod (∑ i : Fin units.length, (units[i] : Int) * 31 ^ (units.length - 1 - i)) (2 ^ 32) ∧
    (∀ read unit rest, units = read ++ unit :: rest → unit < 2 ^ 16 ∧
      ((read ++ [unit]).foldl step 0).toInt =
        Int.bmod ((read.foldl step 0).toInt * 31 + unit) (2 ^ 32)) ∧
    (∀ before : String, (hash (before ++ text)).toInt ≡
      (hash before).toInt * 31 ^ units.length + (hash text).toInt [ZMOD 2 ^ 32]) ∧
    Numeral.int? (fingerprint text).toList = some (hash text).toInt ∧
    ∀ other, fingerprint text = fingerprint other ↔ hash text = hash other := by
  obtain rfl := utf16_iff.mp h
  have hread (text : String) : Numeral.int? (fingerprint text).toList = some (hash text).toInt :=
    Numeral.int?_toString (hash text).toInt
  refine ⟨toInt_hash text, ?_, ?_, hread text, fun other => ⟨fun hsame => ?_, fun hsame => ?_⟩⟩
  · intro read unit rest hunits
    have hmem : unit ∈ units16 text.toList := by simp [hunits]
    refine ⟨h.lt unit hmem, ?_⟩
    rw [List.foldl_append]
    exact toInt_step (read.foldl step 0) unit
  · intro before
    have hreduced : (hash text).toInt ≡ value (units16 text.toList) [ZMOD 2 ^ 32] := by
      rw [toInt_hash]
      exact Int.bmod_emod
    rw [toInt_hash_append]
    exact Int.ModEq.trans Int.bmod_emod (hreduced.symm.add_left _)
  · have hother := hread other
    rw [← hsame, hread text] at hother
    exact Int32.toInt_inj.mp (Option.some.inj hother)
  · rw [fingerprint, fingerprint, hsame]

/-- A character of two units, behind a text whose hash has wrapped. -/
theorem smile_hashed :
    Utf16 "😀".toList [0xd83d, 0xde00] ∧ (hash "😀").toInt = 1772899 ∧
      (hash ("abcdefghij" ++ "😀")).toInt ≡ -634317659 * 31 ^ 2 + 1772899 [ZMOD 2 ^ 32] ∧
      Numeral.int? (fingerprint "😀").toList = some 1772899 := by
  have hunits : Utf16 "😀".toList [0xd83d, 0xde00] := utf16_iff.mpr (by decide)
  obtain ⟨hvalue, -, hjoined, hread, -⟩ := hash_of_utf16 hunits
  have hsmile : (hash "😀").toInt = 1772899 := hvalue.trans (by decide)
  have hbefore : (hash "abcdefghij").toInt = -634317659 := by decide
  have hlater := hjoined "abcdefghij"
  rw [hbefore, hsmile] at hlater
  exact ⟨hunits, hsmile, hlater, hsmile ▸ hread⟩

end Fingerprint

end FieldQuery
