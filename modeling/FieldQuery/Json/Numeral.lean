import FieldQuery.Json.Basic
import FieldQuery.Number.Numeral

/-!
Numerals in JSON documents. Integers of 64 bits are exact. Any other numeral
is gathered into a significand of 64 bits, whose further digits are dropped,
and a power of ten; the value is then computed in binary64 with one rounding
for each step, and need not be the number nearest to the numeral.
-/

namespace FieldQuery.Json

/-- A numeral: sign, digits before the point, digits after it if there is a
point, and exponent if there is one. -/
structure Lexeme where
  negative : Bool
  whole : List Char
  fraction : Option (List Char)
  exponent : Option Int
deriving DecidableEq

/-- A significand and the power of ten that scales it. -/
structure Gathered where
  significand : Nat
  exponent : Int

/-- Appends digits while the significand fits in 64 bits. A digit that does not
fit is dropped with all digits after it. -/
def gather (significand : Nat) : List Char → Nat × List Char
  | [] => (significand, [])
  | digit :: rest =>
      let next := 10 * significand + (digit.toNat - '0'.toNat)
      if next < Word.unsignedEnd then gather next rest else (significand, digit :: rest)

/-- Each dropped digit before the point counts as a power of ten. -/
def Lexeme.gathered (n : Lexeme) : Gathered :=
  let (whole, dropped) := gather 0 n.whole
  let fraction := n.fraction.getD []
  let (significand, unread) := gather whole fraction
  ⟨significand, n.exponent.getD 0 + dropped.length - (fraction.length - unread.length : Nat)⟩

/-- Scales by a power of ten. Powers beyond the range of binary64 are applied
in steps of 308 places; `none` if the value grows out of range. -/
def scaleDecimal (x : Double) (exponent : Int) : Option Double :=
  if exponent < -308 then
    if x.isZero then some x
    else scaleDecimal (x.div (Double.ofDecimal false 1 308)) (exponent + 308)
  else if exponent < 0 then some (x.div (Double.ofDecimal false 1 (-exponent)))
  else if exponent ≤ 308 then
    let scaled := x.mul (Double.ofDecimal false 1 exponent)
    if scaled.isFinite then some scaled else none
  else if x.isZero then some x
  else none
termination_by exponent.natAbs

/-- Value of a numeral, unless it is out of range. -/
def Lexeme.value? (n : Lexeme) : Option JsonNumber :=
  let digits := Numeral.digitsValue n.whole
  let exact := n.fraction.isNone && n.exponent.isNone && digits < Word.unsignedEnd
  if exact && !n.negative then JsonNumber.ofInt? digits
  else if exact && 0 < digits && digits ≤ Word.signedEnd then JsonNumber.ofInt? (-digits)
  else
    let gathered := n.gathered
    (scaleDecimal (Double.ofNat gathered.significand) gathered.exponent).bind fun x =>
      JsonNumber.ofDouble? (if n.negative then x.negate else x)

def takeDigits (text : List Char) : List Char × List Char :=
  (text.takeWhile Char.isDigit, text.dropWhile Char.isDigit)

/-- Takes the digits before the point; a leading zero stands alone. -/
def takeWhole? (text : List Char) : Option (List Char × List Char) :=
  match takeDigits text with
  | ([], _) => none
  | ('0' :: _ :: _, _) => none
  | taken => some taken

def takeFraction? : List Char → Option (Option (List Char) × List Char)
  | '.' :: text =>
      match takeDigits text with
      | ([], _) => none
      | (digits, rest) => some (some digits, rest)
  | text => some (none, text)

def takeExponent? : List Char → Option (Option Int × List Char)
  | 'e' :: text | 'E' :: text =>
      let (negative, text) := Numeral.takeSign text
      match takeDigits text with
      | ([], _) => none
      | (digits, rest) =>
          let exponent : Int := Numeral.digitsValue digits
          some (some (if negative then -exponent else exponent), rest)
  | text => some (none, text)

/-- Takes a numeral from the front of a text. -/
def takeLexeme? (text : List Char) : Option (Lexeme × List Char) :=
  let (negative, text) := match text with
    | '-' :: rest => (true, rest)
    | text => (false, text)
  match takeWhole? text with
  | none => none
  | some (whole, text) =>
      match takeFraction? text with
      | none => none
      | some (fraction, text) =>
          match takeExponent? text with
          | none => none
          | some (exponent, rest) => some (⟨negative, whole, fraction, exponent⟩, rest)

end FieldQuery.Json
