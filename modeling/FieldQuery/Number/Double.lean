import FieldQuery.Number.Word

/-!
Binary64 numbers as bit patterns. A finite number is read as an integer
significand times a power of two, and every operation computes its exact
rational result first and rounds it once, to the nearest number with ties to
the even significand.
-/

namespace FieldQuery

structure Double where
  bits : UInt64
deriving DecidableEq, Inhabited

namespace Double

/-- Significands have 53 bits, the leading one implicit in normal numbers. -/
def hiddenBit : Nat := 0x10000000000000

/-- The exponent field that marks infinities and NaN. -/
def specialExponent : Nat := 2047

def isNegative (x : Double) : Bool := x.bits.toNat >>> 63 == 1

def exponentField (x : Double) : Nat := (x.bits.toNat >>> 52) % 2048

def fraction (x : Double) : Nat := x.bits.toNat % hiddenBit

def isFinite (x : Double) : Bool := x.exponentField != specialExponent

def isNaN (x : Double) : Bool := !x.isFinite && x.fraction != 0

/-- Integer significand of a finite number. -/
def significand (x : Double) : Nat :=
  if x.exponentField = 0 then x.fraction else x.fraction + hiddenBit

/-- Power of two that scales the significand of a finite number. -/
def scale (x : Double) : Int := max x.exponentField 1 - 1075

def isZero (x : Double) : Bool := x.exponentField == 0 && x.fraction == 0

/-- Number with the given sign and the remaining 63 bits. -/
def ofMagnitude (negative : Bool) (magnitude : Nat) : Double :=
  ⟨UInt64.ofNat ((if negative then 0x8000000000000000 else 0) + magnitude)⟩

def zero (negative : Bool) : Double := ofMagnitude negative 0

def infinity (negative : Bool) : Double :=
  ofMagnitude negative (specialExponent * hiddenBit)

def nan : Double := ofMagnitude false (specialExponent * hiddenBit + hiddenBit / 2)

def negate (x : Double) : Double := ⟨x.bits ^^^ 0x8000000000000000⟩

/-- Quotient rounded to the nearest integer, a tie to the even neighbour. -/
def roundQuotient (num den : Nat) : Nat :=
  let quotient := num / den
  let rest := num % den
  if 2 * rest > den || (2 * rest == den && quotient % 2 == 1) then quotient + 1 else quotient

/-- Quotient of `num * 2 ^ shift` by `den`, rounded. -/
def roundShifted (num den : Nat) (shift : Int) : Nat :=
  if 0 ≤ shift then roundQuotient (num <<< shift.toNat) den
  else roundQuotient num (den <<< (-shift).toNat)

/-- Binary exponent of the last place of `num / den`, never below the
exponent of the least positive number. -/
def lastPlace (num den : Nat) : Int :=
  let estimate : Int := (num.log2 : Int) - den.log2 - 53
  let wide :=
    if 0 ≤ estimate then num ≥ den <<< (53 + estimate.toNat)
    else num <<< (-estimate).toNat ≥ den <<< 53
  max (if wide then estimate + 1 else estimate) (-1074)

/-- The number nearest to `num / den`, with the given sign. Quotients that
round past the greatest finite number become infinite. -/
def ofRatio (negative : Bool) (num den : Nat) : Double :=
  if num = 0 then zero negative
  else
    let place := lastPlace num den
    let magnitude := (place + 1074).toNat * hiddenBit + roundShifted num den (-place)
    if magnitude < specialExponent * hiddenBit then ofMagnitude negative magnitude
    else infinity negative

def ofNat (n : Nat) : Double := ofRatio false n 1

def ofInt (n : Int) : Double := ofRatio (n < 0) n.natAbs 1

/-- Numerator and denominator of the magnitude of a finite number. -/
def ratio (x : Double) : Nat × Nat :=
  if 0 ≤ x.scale then (x.significand <<< x.scale.toNat, 1)
  else (x.significand, 1 <<< (-x.scale).toNat)

/-- The number nearest to `digits * 10 ^ exponent`. Magnitudes that are far
out of range are settled by their number of digits alone. -/
def ofDecimal (negative : Bool) (digits : Nat) (exponent : Int) : Double :=
  if digits = 0 then zero negative
  else
    let place : Int := (Nat.toDigits 10 digits).length + exponent
    if place > 310 then infinity negative
    else if place < -330 then zero negative
    else if 0 ≤ exponent then ofRatio negative (digits * Nat.pow 10 exponent.toNat) 1
    else ofRatio negative digits (Nat.pow 10 (-exponent).toNat)

/-- Numeric equality: the two zeros are equal and NaN equals nothing. -/
def same (x y : Double) : Bool :=
  !x.isNaN && !y.isNaN && (x.bits == y.bits || (x.isZero && y.isZero))

def mul (x y : Double) : Double :=
  let negative := x.isNegative != y.isNegative
  if x.isNaN || y.isNaN then nan
  else if !x.isFinite || !y.isFinite then
    if x.isZero || y.isZero then nan else infinity negative
  else
    ofRatio negative (x.ratio.1 * y.ratio.1) (x.ratio.2 * y.ratio.2)

def div (x y : Double) : Double :=
  let negative := x.isNegative != y.isNegative
  if x.isNaN || y.isNaN then nan
  else if !x.isFinite then if y.isFinite then infinity negative else nan
  else if !y.isFinite then zero negative
  else if y.isZero then if x.isZero then nan else infinity negative
  else ofRatio negative (x.ratio.1 * y.ratio.2) (x.ratio.2 * y.ratio.1)

/-- The integer equal to the number, if there is one. -/
def toInt? (x : Double) : Option Int :=
  if !x.isFinite then none
  else
    let (num, den) := x.ratio
    if num % den = 0 then
      some (if x.isNegative then -(num / den : Nat) else (num / den : Nat))
    else none

/-- The 64-bit integer equal to the number, if there is one. -/
def toInt64? (x : Double) : Option Int64 := x.toInt?.bind Word.int64?

end Double

end FieldQuery
