import FieldQuery.Toml.Scalar

/-!
Reading TOML: values, statements line by line, and whole documents.
-/

namespace FieldQuery.Toml

/-- A reader takes something from the front of a text and hands back the rest. -/
abbrev Reader (α : Type) := List Char → Option (α × List Char)

/-- Takes the items of an array up to its closing bracket; a comma may follow
the last one. The steps bound the number of items. -/
def takeItems? (takeValue? : Reader Toml) : Nat → Reader (List Toml)
  | 0, _ => none
  | steps + 1, text =>
      match skipLayout false text with
      | ']' :: rest => some ([], rest)
      | text =>
          match takeValue? text with
          | none => none
          | some (v, rest) =>
              match skipLayout false rest with
              | ']' :: rest => some ([v], rest)
              | ',' :: rest =>
                  (takeItems? takeValue? steps rest).map fun (items, rest) => (v :: items, rest)
              | _ => none

/-- Takes a key and its value. -/
def takePair? (takeValue? : Reader Toml) : Reader (DottedKey × Toml) := fun text =>
  match takeKey? text with
  | some (key, '=' :: rest) =>
      (takeValue? (skipGap rest)).map fun (v, rest) => ((key, v), rest)
  | _ => none

/-- Takes the entries of a table up to its closing brace; a comma promises
another entry. -/
def takePairs? (takeValue? : Reader Toml) : Nat → Reader (List (DottedKey × Toml))
  | 0, _ => none
  | steps + 1, text =>
      match takePair? takeValue? text with
      | none => none
      | some (entry, rest) =>
          match skipGap rest with
          | '}' :: rest => some ([entry], rest)
          | ',' :: rest =>
              (takePairs? takeValue? steps rest).map fun (entries, rest) =>
                (entry :: entries, rest)
          | _ => none

/-- Takes a table after its opening brace. -/
def takeInline? (takeValue? : Reader Toml) : Reader Toml := fun text =>
  match skipGap text with
  | '}' :: rest => some (.table .inlined [], rest)
  | text =>
      match takePairs? takeValue? text.length text with
      | none => none
      | some (entries, rest) => (inlineTable? entries).map (·, rest)

/-- Takes a value whose brackets nest at most so deep. -/
def takeValue? : Nat → Reader Toml
  | levels + 1, '[' :: rest =>
      (takeItems? (takeValue? levels) rest.length rest).map fun (items, rest) =>
        (.array items, rest)
  | levels + 1, '{' :: rest => takeInline? (takeValue? levels) rest
  | _, text => takeScalar? text

def takeStatement? : Reader Statement
  | '[' :: '[' :: rest =>
      match takeKey? rest with
      | some (key, ']' :: ']' :: rest) => some (.repeatedHeader key, rest)
      | _ => none
  | '[' :: rest =>
      match takeKey? rest with
      | some (key, ']' :: rest) => some (.header key, rest)
      | _ => none
  | text =>
      (takePair? (takeValue? nestingLimit) text).map fun ((key, v), rest) =>
        (.entry key v, rest)

/-- Statements of a text, at most one a line. The steps bound the number of
lines. -/
def statements? : Nat → List Char → Option (List Statement)
  | 0, _ => none
  | steps + 1, text =>
      match skipGap text with
      | [] => some []
      | '\n' :: rest => statements? steps rest
      | '#' :: rest => (endLine? ('#' :: rest)).bind (statements? steps)
      | text =>
          match takeStatement? text with
          | none => none
          | some (statement, rest) =>
              match endLine? rest with
              | none => none
              | some rest => (statements? steps rest).map (statement :: ·)

/-- A mark of the byte order may open a document. -/
def dropByteOrderMark : List Char → List Char
  | '\ufeff' :: rest => rest
  | text => text

/-- The table that a whole text holds. -/
def parse? (text : String) : Option (Fields Toml) :=
  let text := unifyBreaks (dropByteOrderMark text.toList)
  (statements? (text.length + 1) text).bind ofStatements?

end FieldQuery.Toml
