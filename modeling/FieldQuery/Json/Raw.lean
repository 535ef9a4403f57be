import FieldQuery.Json.Numeral
import FieldQuery.Text.Hex

/-!
JSON grammar. A raw document is read for its form alone: a numeral out of
range and a string with half of a surrogate pair are well formed, but have no
value, and nesting is unlimited. Parts of a document that nobody uses may
therefore hold them.
-/

namespace FieldQuery

inductive RawJson where
  | null
  | bool (b : Bool)
  | number (value : Option JsonNumber)
  | string (value : Option String)
  | array (items : List RawJson)
  | object (members : List (Option String × RawJson))
deriving Inhabited

namespace RawJson

/-- A part of a quoted text: a character, or the number of a `\u` escape. -/
inductive Piece where
  | char (c : Char)
  | unit (code : Nat)
deriving DecidableEq

def hexUnit? (a b c d : Char) : Option Nat :=
  match Text.hexValue? a, Text.hexValue? b, Text.hexValue? c, Text.hexValue? d with
  | some a, some b, some c, some d => some (((a * 16 + b) * 16 + c) * 16 + d)
  | _, _, _, _ => none

/-- Character of an escape with one letter. -/
def escaped? : Char → Option Char
  | '"' => some '"'
  | '\\' => some '\\'
  | '/' => some '/'
  | 'b' => some '\x08'
  | 'f' => some '\x0c'
  | 'n' => some '\n'
  | 'r' => some '\r'
  | 't' => some '\t'
  | _ => none

/-- Takes the rest of a quoted text after its opening quote. -/
def takeQuoted? : List Char → Option (List Piece × List Char)
  | [] => none
  | '"' :: rest => some ([], rest)
  | '\\' :: 'u' :: a :: b :: c :: d :: rest =>
      match hexUnit? a b c d, takeQuoted? rest with
      | some code, some (pieces, rest) => some (.unit code :: pieces, rest)
      | _, _ => none
  | '\\' :: c :: rest =>
      match escaped? c, takeQuoted? rest with
      | some c, some (pieces, rest) => some (.char c :: pieces, rest)
      | _, _ => none
  | c :: rest =>
      if c = '\\' ∨ c.toNat < 0x20 then none
      else match takeQuoted? rest with
        | some (pieces, rest) => some (.char c :: pieces, rest)
        | none => none

def isHighSurrogate (code : Nat) : Bool := 0xd800 ≤ code && code < 0xdc00

def isLowSurrogate (code : Nat) : Bool := 0xdc00 ≤ code && code < 0xe000

/-- Characters of a quoted text; surrogates must come in pairs. -/
def characters? : List Piece → Option (List Char)
  | [] => some []
  | .char c :: rest => (characters? rest).map (c :: ·)
  | .unit high :: .unit low :: rest =>
      if isHighSurrogate high then
        if isLowSurrogate low then
          (characters? rest).map
            (Char.ofNat (0x10000 + (high - 0xd800) * 0x400 + (low - 0xdc00)) :: ·)
        else none
      else if isLowSurrogate high then none
      else (characters? (.unit low :: rest)).map (Char.ofNat high :: ·)
  | .unit code :: rest =>
      if isHighSurrogate code || isLowSurrogate code then none
      else (characters? rest).map (Char.ofNat code :: ·)

def takeString? (text : List Char) : Option (Option String × List Char) :=
  (takeQuoted? text).map fun (pieces, rest) => ((characters? pieces).map String.ofList, rest)

def isSpace (c : Char) : Bool := c == ' ' || c == '\n' || c == '\t' || c == '\r'

def skipSpace (text : List Char) : List Char := text.dropWhile isSpace

mutual

/-- Takes a document from the front of a text. The steps bound the nesting and
the number of siblings together, and a text has fewer of them than
characters. -/
def take? : Nat → List Char → Option (RawJson × List Char)
  | 0, _ => none
  | steps + 1, text =>
      match skipSpace text with
      | 'n' :: 'u' :: 'l' :: 'l' :: rest => some (.null, rest)
      | 't' :: 'r' :: 'u' :: 'e' :: rest => some (.bool true, rest)
      | 'f' :: 'a' :: 'l' :: 's' :: 'e' :: rest => some (.bool false, rest)
      | '"' :: rest => (takeString? rest).map fun (s, rest) => (.string s, rest)
      | '[' :: rest =>
          match skipSpace rest with
          | ']' :: rest => some (.array [], rest)
          | rest => (takeItems? steps rest).map fun (items, rest) => (.array items, rest)
      | '{' :: rest =>
          match skipSpace rest with
          | '}' :: rest => some (.object [], rest)
          | rest => (takeMembers? steps rest).map fun (members, rest) => (.object members, rest)
      | text => (Json.takeLexeme? text).map fun (n, rest) => (.number n.value?, rest)

/-- Takes items up to the closing bracket. -/
def takeItems? : Nat → List Char → Option (List RawJson × List Char)
  | 0, _ => none
  | steps + 1, text =>
      match take? steps text with
      | none => none
      | some (item, rest) =>
          match skipSpace rest with
          | ']' :: rest => some ([item], rest)
          | ',' :: rest =>
              (takeItems? steps rest).map fun (items, rest) => (item :: items, rest)
          | _ => none

/-- Takes members up to the closing brace. -/
def takeMembers? : Nat → List Char → Option (List (Option String × RawJson) × List Char)
  | 0, _ => none
  | steps + 1, text =>
      match skipSpace text with
      | '"' :: text =>
          match takeString? text with
          | none => none
          | some (key, rest) =>
              match skipSpace rest with
              | ':' :: rest =>
                  match take? steps rest with
                  | none => none
                  | some (value, rest) =>
                      match skipSpace rest with
                      | '}' :: rest => some ([(key, value)], rest)
                      | ',' :: rest =>
                          (takeMembers? steps rest).map fun (members, rest) =>
                            ((key, value) :: members, rest)
                      | _ => none
              | _ => none
      | _ => none

end

/-- The document that a whole text holds. -/
def parse? (text : List Char) : Option RawJson :=
  match take? (text.length + 1) text with
  | some (v, rest) => if (skipSpace rest).isEmpty then some v else none
  | none => none

end RawJson

end FieldQuery
