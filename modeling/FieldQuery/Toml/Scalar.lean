import FieldQuery.Toml.Text
import FieldQuery.Number.Numeral

/-!
Numbers, dates and times of TOML.
-/

namespace FieldQuery.Toml

/-- Takes the digits after a first one. Single underscores may stand between
digits. -/
def moreDigits? (isDigit : Char → Bool) : List Char → Option (List Char × List Char)
  | [] => some ([], [])
  | ['_'] => none
  | '_' :: d :: rest => if isDigit d then (moreDigits? isDigit rest).map (before d) else none
  | d :: rest =>
      if isDigit d then (moreDigits? isDigit rest).map (before d) else some ([], d :: rest)

def takeDigits? (isDigit : Char → Bool) : List Char → Option (List Char × List Char)
  | [] => none
  | d :: rest => if isDigit d then (moreDigits? isDigit rest).map (before d) else none

/-- Takes the digits before the point; a leading zero stands alone. -/
def takeWhole? : List Char → Option (List Char × List Char)
  | '0' :: rest => some (['0'], rest)
  | text => takeDigits? Char.isDigit text

def int? (n : Int) : Option Toml := (Word.int64? n).map .int

/-- Takes an integer without sign in a base after its mark. -/
def takeRadix? (base : Nat) (text : List Char) : Option (Toml × List Char) :=
  let isDigit (c : Char) : Bool := (Text.hexValue? c).any (· < base)
  match takeDigits? isDigit text with
  | none => none
  | some (digits, rest) =>
      let value := digits.foldl
        (fun value digit => base * value + (Text.hexValue? digit).getD 0) 0
      (int? value).map (·, rest)

/-- Takes the digits after the point, if there is a point. -/
def takeFraction? : List Char → Option (Option (List Char) × List Char)
  | '.' :: rest => (takeDigits? Char.isDigit rest).map fun (digits, rest) => (some digits, rest)
  | text => some (none, text)

def takeExponent? : List Char → Option (Option Int × List Char)
  | 'e' :: rest | 'E' :: rest =>
      let (negative, rest) := Numeral.takeSign rest
      (takeDigits? Char.isDigit rest).map fun (digits, rest) =>
        let exponent : Int := Numeral.digitsValue digits
        (some (if negative then -exponent else exponent), rest)
  | text => some (none, text)

/-- A float that does not grow beyond the finite numbers; below them it may. -/
def float? (x : Double) : Option Toml :=
  if x.isFinite || x.isNegative then some (.float x) else none

/-- Takes a decimal number after its sign. -/
def takeDecimal? (negative : Bool) (text : List Char) : Option (Toml × List Char) := do
  let (whole, rest) ← takeWhole? text
  let (fraction, rest) ← takeFraction? rest
  let (exponent, rest) ← takeExponent? rest
  let v ←
    if fraction.isNone && exponent.isNone then
      let magnitude : Int := Numeral.digitsValue whole
      int? (if negative then -magnitude else magnitude)
    else
      let places := fraction.getD []
      float? (.ofDecimal negative (Numeral.digitsValue (whole ++ places))
        (exponent.getD 0 - places.length))
  return (v, rest)

/-- Takes a number. Infinity and NaN may have a sign, which NaN loses. -/
def takeNumber? : List Char → Option (Toml × List Char)
  | '0' :: 'x' :: rest => takeRadix? 16 rest
  | '0' :: 'o' :: rest => takeRadix? 8 rest
  | '0' :: 'b' :: rest => takeRadix? 2 rest
  | text =>
      match Numeral.takeSign text with
      | (negative, 'i' :: 'n' :: 'f' :: rest) => some (.float (.infinity negative), rest)
      | (_, 'n' :: 'a' :: 'n' :: rest) => some (.float .nan, rest)
      | (negative, rest) => takeDecimal? negative rest

/-- Takes a number of exactly so many digits within bounds. -/
def takeField? (width least greatest : Nat) (text : List Char) : Option (Nat × List Char) :=
  let digits := text.take width
  let value := Numeral.digitsValue digits
  if digits.length = width ∧ digits.all Char.isDigit ∧ least ≤ value ∧ value ≤ greatest then
    some (value, text.drop width)
  else none

def takeChar? (c : Char) : List Char → Option (List Char)
  | d :: rest => if c = d then some rest else none
  | [] => none

def isLeapYear (year : Nat) : Bool :=
  year % 4 == 0 && (year % 100 != 0 || year % 400 == 0)

def monthLength (year month : Nat) : Nat :=
  if month = 2 then if isLeapYear year then 29 else 28
  else if month ∈ [4, 6, 9, 11] then 30
  else 31

/-- Skips a date, whose day must exist. -/
def skipDate? (text : List Char) : Option (List Char) := do
  let (year, rest) ← takeField? 4 0 9999 text
  let rest ← takeChar? '-' rest
  let (month, rest) ← takeField? 2 1 12 rest
  let rest ← takeChar? '-' rest
  let (_, rest) ← takeField? 2 1 (monthLength year month) rest
  return rest

/-- Skips the decimal places of a second, if there are any. -/
def skipPlaces : List Char → List Char
  | '.' :: d :: rest => if d.isDigit then rest.dropWhile Char.isDigit else '.' :: d :: rest
  | text => text

/-- Skips a time of day; a minute may have a leap second. -/
def skipTime? (text : List Char) : Option (List Char) := do
  let (_, rest) ← takeField? 2 0 23 text
  let rest ← takeChar? ':' rest
  let (_, rest) ← takeField? 2 0 59 rest
  let rest ← takeChar? ':' rest
  let (_, rest) ← takeField? 2 0 60 rest
  return skipPlaces rest

/-- Skips hours and minutes from Greenwich. -/
def skipDistance? (text : List Char) : Option (List Char) := do
  let (_, rest) ← takeField? 2 0 23 text
  let rest ← takeChar? ':' rest
  let (_, rest) ← takeField? 2 0 59 rest
  return rest

/-- Skips the offset that may follow a date and a time. -/
def skipOffset (text : List Char) : List Char :=
  match text with
  | 'Z' :: rest | 'z' :: rest => rest
  | '+' :: rest | '-' :: rest => (skipDistance? rest).getD text
  | _ => text

/-- Skips the time of day that may follow a date. -/
def skipClock (text : List Char) : List Char :=
  match text with
  | c :: rest =>
      if c = 'T' ∨ c = 't' ∨ c = ' ' then ((skipTime? rest).map skipOffset).getD text else text
  | [] => []

/-- Takes a date, a time of day, or both with an optional offset. -/
def takeMoment? (text : List Char) : Option (Toml × List Char) :=
  let rest := match skipDate? text with
    | some rest => some (skipClock rest)
    | none => skipTime? text
  rest.map fun rest =>
    (.moment (String.ofList (text.take (text.length - rest.length))), rest)

/-- Takes a value without brackets. -/
def takeScalar? : List Char → Option (Toml × List Char)
  | 't' :: 'r' :: 'u' :: 'e' :: rest => some (.bool true, rest)
  | 'f' :: 'a' :: 'l' :: 's' :: 'e' :: rest => some (.bool false, rest)
  | '"' :: rest => (takeString? ('"' :: rest)).map fun (s, rest) => (.string (String.ofList s), rest)
  | '\x27' :: rest =>
      (takeString? ('\x27' :: rest)).map fun (s, rest) => (.string (String.ofList s), rest)
  | text => (takeMoment? text).or (takeNumber? text)

end FieldQuery.Toml
