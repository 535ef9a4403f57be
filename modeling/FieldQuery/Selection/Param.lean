import FieldQuery.Number.Decimal
import FieldQuery.Number.Numeral
import FieldQuery.Text.Alphanumeric
import FieldQuery.Text.Blank

/-!
Positional parameters of a call.
-/

namespace FieldQuery

/-- A parameter names a request parameter, or stands for itself. -/
inductive Param where
  | named (name : String)
  | number (value : Double)
  | literal (text : String)
deriving DecidableEq, Inhabited

namespace Param

def isNameChar (c : Char) : Bool := Text.isAlphanumeric c || c == '_'

/-- Names start with an ASCII letter or an underscore. -/
def isIdentifier : List Char → Bool
  | first :: rest => (first.isAlpha || first == '_') && rest.all isNameChar
  | [] => false

/-- A token is a name if it looks like one, else a finite number if it reads
as one, else the text itself. -/
def ofToken (token : List Char) : Param :=
  let token := Text.trim token
  if isIdentifier token then .named (String.ofList token)
  else match Numeral.double? token with
    | some value => if value.isFinite then .number value else .literal (String.ofList token)
    | none => .literal (String.ofList token)

/-- Numbers in a schema never have an exponent or a superfluous `.0`, and ties
go away from zero. -/
def numberLayout : Double.Layout := ⟨.away, none, false, "NaN", "inf"⟩

def text : Param → String
  | .named name => name
  | .number value => value.text numberLayout
  | .literal text => text

/-- Parameters are the same if written the same way, numbers if equal. -/
def same : Param → Param → Bool
  | .named x, .named y => x == y
  | .number x, .number y => x.same y
  | .literal x, .literal y => x == y
  | _, _ => false

end Param

end FieldQuery
