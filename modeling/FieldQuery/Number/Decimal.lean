import FieldQuery.Number.Double

/-!
Decimal text of binary64 numbers: the fewest digits that read back to the same
number, and among those the nearest, laid out with or without an exponent. Of
two that are equally near, a format takes the even one or the larger one.
-/

namespace FieldQuery

/-- The decimal `digits * 10 ^ exponent`. -/
structure Decimal where
  digits : Nat
  exponent : Int
deriving DecidableEq

namespace Decimal

/-- Digits as text, most significant first. -/
def digitText (d : Decimal) : List Char := Nat.toDigits 10 d.digits

/-- Exponent of the first digit. -/
def leadingExponent (d : Decimal) : Int := d.digitText.length - 1 + d.exponent

/-- Text without an exponent. `pointZero` adds `.0` to integers. -/
def positional (d : Decimal) (pointZero : Bool) : List Char :=
  let digits := d.digitText
  let point : Int := digits.length + d.exponent
  if 0 ≤ d.exponent then
    digits ++ List.replicate d.exponent.toNat '0' ++ if pointZero then ['.', '0'] else []
  else if 0 < point then
    digits.take point.toNat ++ '.' :: digits.drop point.toNat
  else
    '0' :: '.' :: List.replicate (-point).toNat '0' ++ digits

/-- Text with one digit before the point and a signed exponent. -/
def scientific (d : Decimal) : List Char :=
  let mantissa := match d.digitText with
    | first :: second :: rest => first :: '.' :: second :: rest
    | digits => digits
  let e := d.leadingExponent
  mantissa ++ 'e' :: (if 0 ≤ e then '+' else '-') :: Nat.toDigits 10 e.natAbs

end Decimal

namespace Double

/-- A power of ten over a power of two, `10 ^ ten / 2 ^ two`, as a ratio. -/
def gridRatio (ten two : Int) : Nat × Nat :=
  (Nat.pow 10 ten.toNat <<< (-two).toNat, Nat.pow 10 (-ten).toNat <<< two.toNat)

/-- Exponent of the first decimal digit of a nonzero finite number. The guess
from the binary exponent is off by at most one. -/
def decimalExponent (x : Double) : Int :=
  let guess : Int := (x.significand.log2 + x.scale) * 78913 / 0x40000
  let reaches (e : Int) : Bool :=
    let (num, den) := gridRatio e x.scale
    num ≤ x.significand * den
  if reaches (guess + 1) then guess + 1 else if reaches guess then guess else guess - 1

/-- Which of two equally near decimals is taken: the one with the even last
digit, or the one farther from zero. -/
inductive Tie where
  | toEven
  | away
deriving DecidableEq

/-- Whether a tie goes to the larger neighbour, by the smaller one. -/
def Tie.goesUp (below : Nat) : Tie → Bool
  | .toEven => below % 2 = 1
  | .away => true

/-- The neighbours of a number on the grid of multiples of `10 ^ place` that
read back to it; the nearer one if both do. -/
def onGrid? (tie : Tie) (x : Double) (place : Int) : Option Decimal :=
  let (unit, den) := gridRatio place (x.scale - 2)
  let value := 4 * x.significand * den
  let lowerGap := if x.fraction = 0 ∧ 1 < x.exponentField then den else 2 * den
  let inside (n : Nat) : Bool :=
    if x.significand % 2 = 0 then value ≤ n * unit + lowerGap && n * unit ≤ value + 2 * den
    else value < n * unit + lowerGap && n * unit < value + 2 * den
  let below := value / unit
  let distance := 2 * (value % unit)
  let nearer :=
    if distance < unit then below
    else if unit < distance then below + 1
    else if tie.goesUp below then below + 1
    else below
  let farther := if nearer = below then below + 1 else below
  if inside nearer then some ⟨nearer, place⟩
  else if inside farther then some ⟨farther, place⟩
  else none

/-- The shortest decimal that reads back to a finite number. Seventeen digits
always do. The coarsest grid offers ten units for a number just below a power
of ten, which are one unit of the next place. -/
def shortest (tie : Tie) (x : Double) : Decimal :=
  if x.isZero then ⟨0, 0⟩
  else
    let first := x.decimalExponent
    match (List.range 17).findSome? fun (k : Nat) => x.onGrid? tie (first - k) with
    | some d => if d.digits % 10 = 0 then ⟨d.digits / 10, d.exponent + 1⟩ else d
    | none => ⟨0, 0⟩

/-- Choices of a number format. Numbers whose leading exponent lies outside
the window are written with an exponent. -/
structure Layout where
  tie : Tie
  window : Option (Int × Int)
  pointZero : Bool
  notANumber : String
  infinite : String

/-- Text of a number in a layout. -/
def text (layout : Layout) (x : Double) : String :=
  if x.isNaN then layout.notANumber
  else
    let sign := if x.isNegative then "-" else ""
    if !x.isFinite then sign ++ layout.infinite
    else
      let d := x.shortest layout.tie
      let plain := match layout.window with
        | none => true
        | some (least, bound) => least ≤ d.leadingExponent && d.leadingExponent < bound
      sign ++ String.ofList (if plain then d.positional layout.pointZero else d.scientific)

end Double

end FieldQuery
