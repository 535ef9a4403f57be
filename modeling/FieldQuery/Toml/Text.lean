import FieldQuery.Toml.Basic
import FieldQuery.Text.Hex

/-!
Blanks, comments, strings and keys of TOML. Line breaks are single line feeds
here, because `unifyBreaks` goes first; a carriage return that is left over is
an error wherever it stands.
-/

namespace FieldQuery.Toml

/-- Writes every line break as a line feed. -/
def unifyBreaks : List Char → List Char
  | '\r' :: '\n' :: rest => '\n' :: unifyBreaks rest
  | c :: rest => c :: unifyBreaks rest
  | [] => []

def isGap (c : Char) : Bool := c == ' ' || c == '\t'

def skipGap (text : List Char) : List Char := text.dropWhile isGap

/-- Characters of comments and of strings: all but controls. -/
def isTextChar (c : Char) : Bool := c == '\t' || (0x20 ≤ c.toNat && c.toNat != 0x7f)

/-- Skips blanks, line breaks and comments; the flag says whether a comment is
open. It stops at a character that no comment may hold, where no value, comma
or bracket starts either. -/
def skipLayout : Bool → List Char → List Char
  | _, [] => []
  | _, '\n' :: rest => skipLayout false rest
  | true, c :: rest => if isTextChar c then skipLayout true rest else c :: rest
  | false, '#' :: rest => skipLayout true rest
  | false, c :: rest => if isGap c then skipLayout false rest else c :: rest

/-- Takes the end of a line, which may hold a comment. -/
def endLine? (text : List Char) : Option (List Char) :=
  let rest := match skipGap text with
    | '#' :: rest => rest.dropWhile isTextChar
    | rest => rest
  match rest with
  | [] => some []
  | '\n' :: rest => some rest
  | _ => none

/-- Takes a character given by its number in so many hexadecimal digits. -/
def takeCode? (width : Nat) (text : List Char) : Option (Char × List Char) :=
  match (text.take width).mapM Text.hexValue? with
  | none => none
  | some digits =>
      let code := digits.foldl (fun code digit => 16 * code + digit) 0
      if digits.length = width ∧ code.isValidChar then some (Char.ofNat code, text.drop width)
      else none

/-- Takes an escape after its backslash. -/
def takeEscape? : List Char → Option (Char × List Char)
  | 'b' :: rest => some ('\x08', rest)
  | 't' :: rest => some ('\t', rest)
  | 'n' :: rest => some ('\n', rest)
  | 'f' :: rest => some ('\x0c', rest)
  | 'r' :: rest => some ('\r', rest)
  | '"' :: rest => some ('"', rest)
  | '\\' :: rest => some ('\\', rest)
  | 'u' :: rest => takeCode? 4 rest
  | 'U' :: rest => takeCode? 8 rest
  | _ => none

theorem takeCode?_le {width : Nat} {text rest : List Char} {c : Char}
    (h : takeCode? width text = some (c, rest)) : rest.length ≤ text.length := by
  unfold takeCode? at h
  split at h
  next => simp at h
  next =>
    dsimp only at h
    split at h
    next =>
      obtain ⟨-, rfl⟩ := by simpa using h
      simp
    next => simp at h

theorem takeEscape?_le {text rest : List Char} {c : Char}
    (h : takeEscape? text = some (c, rest)) : rest.length ≤ text.length := by
  unfold takeEscape? at h
  split at h
  case h_8 => exact Nat.le_succ_of_le (takeCode?_le h)
  case h_9 => exact Nat.le_succ_of_le (takeCode?_le h)
  case h_10 => simp at h
  all_goals
    obtain ⟨-, rfl⟩ := by simpa using h
    simp

/-- Puts a character in front of what was taken. -/
def before (c : Char) : List Char × List Char → List Char × List Char
  | (taken, rest) => (c :: taken, rest)

/-- Takes the rest of a string in double quotes. -/
def takeBasic? (text : List Char) : Option (List Char × List Char) :=
  match text with
  | [] => none
  | '"' :: rest => some ([], rest)
  | '\\' :: rest =>
      match h : takeEscape? rest with
      | none => none
      | some (c, after) =>
          have := takeEscape?_le h
          (takeBasic? after).map (before c)
  | c :: rest => if isTextChar c then (takeBasic? rest).map (before c) else none
termination_by text.length

/-- Skips blanks and line breaks. -/
def skipBreaks (text : List Char) : List Char := text.dropWhile fun c => isGap c || c == '\n'

/-- Takes the rest of a string in three double quotes. A backslash before a
line break joins the lines, and one or two quotes may precede the closing
ones. -/
def takeMultiBasic? (text : List Char) : Option (List Char × List Char) :=
  match text with
  | [] => none
  | '"' :: '"' :: '"' :: '"' :: '"' :: rest => some (['"', '"'], rest)
  | '"' :: '"' :: '"' :: '"' :: rest => some (['"'], rest)
  | '"' :: '"' :: '"' :: rest => some ([], rest)
  | '\\' :: rest =>
      match skipGap rest with
      | '\n' :: _ =>
          have : (skipBreaks rest).length ≤ rest.length :=
            (List.dropWhile_sublist _).length_le
          takeMultiBasic? (skipBreaks rest)
      | _ =>
          match h : takeEscape? rest with
          | none => none
          | some (c, after) =>
              have := takeEscape?_le h
              (takeMultiBasic? after).map (before c)
  | c :: rest =>
      if isTextChar c || c == '\n' then (takeMultiBasic? rest).map (before c) else none
termination_by text.length

/-- Takes the rest of a string in single quotes, in which nothing is escaped. -/
def takeLiteral? : List Char → Option (List Char × List Char)
  | [] => none
  | '\x27' :: rest => some ([], rest)
  | c :: rest => if isTextChar c then (takeLiteral? rest).map (before c) else none

/-- Takes the rest of a string in three single quotes. -/
def takeMultiLiteral? : List Char → Option (List Char × List Char)
  | [] => none
  | '\x27' :: '\x27' :: '\x27' :: '\x27' :: '\x27' :: rest => some (['\x27', '\x27'], rest)
  | '\x27' :: '\x27' :: '\x27' :: '\x27' :: rest => some (['\x27'], rest)
  | '\x27' :: '\x27' :: '\x27' :: rest => some ([], rest)
  | c :: rest =>
      if isTextChar c || c == '\n' then (takeMultiLiteral? rest).map (before c) else none

/-- A line break right after the opening quotes is not part of the string. -/
def dropBreak : List Char → List Char
  | '\n' :: rest => rest
  | text => text

def takeString? : List Char → Option (List Char × List Char)
  | '"' :: '"' :: '"' :: rest => takeMultiBasic? (dropBreak rest)
  | '"' :: rest => takeBasic? rest
  | '\x27' :: '\x27' :: '\x27' :: rest => takeMultiLiteral? (dropBreak rest)
  | '\x27' :: rest => takeLiteral? rest
  | _ => none

def isBareChar (c : Char) : Bool := c.isAlphanum || c == '_' || c == '-'

/-- Takes a part of a key: quoted on one line, or a run of bare characters. -/
def takePart? : List Char → Option (List Char × List Char)
  | '"' :: rest => takeBasic? rest
  | '\x27' :: rest => takeLiteral? rest
  | text =>
      match text.takeWhile isBareChar with
      | [] => none
      | part => some (part, text.dropWhile isBareChar)

/-- Takes parts separated by points, and the blanks around them; a key has
room for so many parts. -/
def takeParts? : Nat → List Char → Option (List String × List Char)
  | 0, _ => none
  | room + 1, text =>
      match takePart? (skipGap text) with
      | none => none
      | some (part, rest) =>
          match skipGap rest with
          | '.' :: rest =>
              (takeParts? room rest).map fun (parts, rest) => (String.ofList part :: parts, rest)
          | rest => some ([String.ofList part], rest)

/-- Levels that keys and brackets may have. -/
def nestingLimit : Nat := 79

def takeKey? (text : List Char) : Option (DottedKey × List Char) :=
  match takeParts? nestingLimit text with
  | none => none
  | some (parts, rest) => parts.getLast?.map fun name => (⟨parts.dropLast, name⟩, rest)

end FieldQuery.Toml
