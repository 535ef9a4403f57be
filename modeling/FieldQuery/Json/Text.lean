import FieldQuery.Json.Basic
import FieldQuery.Text.Hex
import FieldQuery.Text.Split

/-!
Texts of JSON documents: the compact form, and one indented by two blanks a
level.
-/

namespace FieldQuery.Json

/-- A character inside quotes. Only quotes, backslashes and controls are
escaped. -/
def escape (c : Char) : List Char :=
  match c with
  | '"' => ['\\', '"']
  | '\\' => ['\\', '\\']
  | '\x08' => ['\\', 'b']
  | '\x0c' => ['\\', 'f']
  | '\n' => ['\\', 'n']
  | '\r' => ['\\', 'r']
  | '\t' => ['\\', 't']
  | c =>
      if c.toNat < 0x20 then
        ['\\', 'u', '0', '0', Text.hexDigit (c.toNat / 16), Text.hexDigit (c.toNat % 16)]
      else [c]

def quote (s : String) : String := String.ofList ('"' :: s.toList.flatMap escape ++ ['"'])

/-- Numbers below `10 ^ 16` and down to `10 ^ -5` are written without an
exponent, and always with a point; ties go to the even digit. -/
def numberLayout : Double.Layout := ⟨.toEven, some (-5, 16), true, "null", "null"⟩

def numberText : JsonNumber → String
  | .int n => toString n.val
  | .float x => x.val.text numberLayout

mutual

/-- The compact text. -/
def text : Json → String
  | .null => "null"
  | .bool true => "true"
  | .bool false => "false"
  | .number n => numberText n
  | .string s => quote s
  | .array items => "[" ++ Text.join "," (itemTexts items) ++ "]"
  | .object members => "\x7b" ++ Text.join "," (memberTexts members) ++ "\x7d"

def itemTexts : List Json → List String
  | [] => []
  | v :: rest => text v :: itemTexts rest

def memberTexts : List (String × Json) → List String
  | [] => []
  | (key, v) :: rest => (quote key ++ ":" ++ text v) :: memberTexts rest

end

/-- A line break and the indentation of a level. -/
def newLine (level : Nat) : String := "\n" ++ String.ofList (List.replicate (2 * level) ' ')

/-- Brackets around indented pieces; no break stands between empty brackets. -/
def bracket (opening closing : String) (level : Nat) : List String → String
  | [] => opening ++ closing
  | pieces =>
      opening ++ newLine (level + 1) ++ Text.join ("," ++ newLine (level + 1)) pieces ++
        newLine level ++ closing

mutual

/-- The indented text of a document that stands at a level. -/
def indentedAt (level : Nat) : Json → String
  | .array items => bracket "[" "]" level (indentedItems (level + 1) items)
  | .object members => bracket "\x7b" "\x7d" level (indentedMembers (level + 1) members)
  | .null => "null"
  | .bool true => "true"
  | .bool false => "false"
  | .number n => numberText n
  | .string s => quote s

def indentedItems (level : Nat) : List Json → List String
  | [] => []
  | v :: rest => indentedAt level v :: indentedItems level rest

def indentedMembers (level : Nat) : List (String × Json) → List String
  | [] => []
  | (key, v) :: rest => (quote key ++ ": " ++ indentedAt level v) :: indentedMembers level rest

end

def indented (v : Json) : String := indentedAt 0 v

end FieldQuery.Json
