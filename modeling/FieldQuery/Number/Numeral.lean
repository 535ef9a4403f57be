import FieldQuery.Number.Double

/-!
Reading decimal numerals, each rounded once from its exact value.
-/

namespace FieldQuery.Numeral

def digitsValue (digits : List Char) : Nat :=
  digits.foldl (fun value digit => 10 * value + (digit.toNat - '0'.toNat)) 0

/-- Splits off an optional sign; the flag says whether it is a minus. -/
def takeSign : List Char → Bool × List Char
  | '-' :: rest => (true, rest)
  | '+' :: rest => (false, rest)
  | text => (false, text)

/-- An optionally signed run of digits, and nothing else. -/
def int? (text : List Char) : Option Int :=
  let (negative, digits) := takeSign text
  if digits ≠ [] ∧ digits.all Char.isDigit then
    some (if negative then -(digitsValue digits : Int) else digitsValue digits)
  else none

/-- The exponent part that ends a numeral: nothing, or `e` and an integer. -/
def exponent? : List Char → Option Int
  | [] => some 0
  | 'e' :: rest | 'E' :: rest => int? rest
  | _ => none

/-- The digits after a point, if there is a point, and what follows. -/
def takeFraction : List Char → List Char × List Char
  | '.' :: rest => rest.span Char.isDigit
  | text => ([], text)

/-- A decimal numeral with optional sign, point and exponent. At least one
digit stands before or after the point. -/
def double? (text : List Char) : Option Double :=
  let (negative, body) := takeSign text
  let (whole, rest) := body.span Char.isDigit
  let (fraction, rest) := takeFraction rest
  if whole = [] ∧ fraction = [] then none
  else
    (exponent? rest).map fun exponent =>
      Double.ofDecimal negative (digitsValue (whole ++ fraction)) (exponent - fraction.length)

end FieldQuery.Numeral
