import FieldQuery.Fingerprint
import FieldQuery.Schema.Compile
import FieldQuery.Selection.Json
import FieldQuery.Selection.Outline

/-!
The command line: compiling, fingerprinting and explaining schemas without a
service.
-/

namespace FieldQuery

inductive Command.Layout where
  | outline
  | json
deriving DecidableEq

/-- Where a command finds its schema. -/
inductive Command.Source where
  | text (schema : String)
  | file (path : String)
  | missing
deriving DecidableEq

inductive Command where
  | version
  | compile (layout : Command.Layout) (source : Command.Source)
  | fingerprint (source : Command.Source)
  | explain (source : Command.Source)
deriving DecidableEq

namespace Command

/-! ### Arguments -/

/-- Arguments after the name of a command, each given at most once. -/
structure Arguments where
  schema : Option String := none
  file : Option String := none
  layout : Option Layout := none

inductive Flag where
  | file
  | layout

/-- An argument on its own: a value, the mark after which all arguments are
values, or a flag, perhaps with its value attached. -/
inductive Word where
  | value (text : String)
  | valuesOnly
  | flag (f : Flag) (attached : Option String)
  | unknown

def longFlag? (hasLayout : Bool) : List Char → Option Flag
  | ['f', 'i', 'l', 'e'] => some .file
  | ['f', 'o', 'r', 'm', 'a', 't'] => if hasLayout then some .layout else none
  | _ => none

/-- Reads an argument. A value is attached to a long flag after `=`, and to a
short one directly or after `=`; a single hyphen is a value. -/
def Word.ofText (hasLayout : Bool) (text : String) : Word :=
  match text.toList with
  | ['-', '-'] => .valuesOnly
  | '-' :: '-' :: rest =>
      match longFlag? hasLayout (rest.takeWhile (· != '=')) with
      | none => .unknown
      | some f =>
          match rest.dropWhile (· != '=') with
          | [] => .flag f none
          | _ :: attached => .flag f (some (String.ofList attached))
  | ['-', 'f'] => .flag .file none
  | '-' :: 'f' :: '=' :: attached => .flag .file (some (String.ofList attached))
  | '-' :: 'f' :: attached => .flag .file (some (String.ofList attached))
  | '-' :: _ :: _ => .unknown
  | _ => .value text

namespace Arguments

def addSchema? (a : Arguments) (schema : String) : Option Arguments :=
  if a.schema.isNone then some { a with schema := some schema } else none

def addFlag? (a : Arguments) : Flag → String → Option Arguments
  | .file, path =>
      if a.file.isNone && path ≠ "" then some { a with file := some path } else none
  | .layout, name =>
      match a.layout, name with
      | none, "pretty" => some { a with layout := some .outline }
      | none, "json" => some { a with layout := some .json }
      | _, _ => none

/-- Reads arguments in order; the flag that is still without a value takes the
next argument, which must be one. -/
def read? (hasLayout : Bool) (a : Arguments) : Option Flag → List String → Option Arguments
  | none, [] => some a
  | some _, [] => none
  | pending, text :: rest =>
      match pending, Word.ofText hasLayout text with
      | some f, .value v => (a.addFlag? f v).bind fun a => read? hasLayout a none rest
      | none, .value v => (a.addSchema? v).bind fun a => read? hasLayout a none rest
      | none, .valuesOnly => rest.foldlM addSchema? a
      | none, .flag f (some v) => (a.addFlag? f v).bind fun a => read? hasLayout a none rest
      | none, .flag f none => read? hasLayout a (some f) rest
      | _, _ => none

/-- A schema is given as text or in a file, not both. -/
def source? (a : Arguments) : Option Source :=
  match a.schema, a.file with
  | some schema, none => some (.text schema)
  | none, some path => some (.file path)
  | none, none => some .missing
  | some _, some _ => none

end Arguments

def sourceOf? (args : List String) : Option Source :=
  (Arguments.read? false {} none args).bind Arguments.source?

/-- The command that arguments give, if they are proper usage. -/
def ofArgs? : List String → Option Command
  | "compile" :: args =>
      (Arguments.read? true {} none args).bind fun a =>
        a.source?.map (compile (a.layout.getD .outline))
  | "fingerprint" :: args => (sourceOf? args).map fingerprint
  | "explain" :: args => (sourceOf? args).map explain
  | first :: _ =>
      if first = "--version" || first.startsWith "-V" then some version else none
  | [] => none

/-! ### Running -/

/-- Why a file that does not exist cannot be read. -/
def noSuchFile : String := "No such file or directory (os error 2)"

/-- Looks a path up among files that have been read; any other does not exist. -/
def readFrom (contents : Fields (Except String String)) (path : String) :
    Except String String :=
  (Fields.get? contents path).getD (.error noSuchFile)

/-- The text of a schema, where `readFile` gives a text or the reason why it
has none. -/
def Source.read (readFile : String → Except String String) : Source → Except String String
  | .text schema => .ok schema
  | .file path =>
      (readFile path).mapError fun reason => "Failed to read " ++ path ++ ": " ++ reason
  | .missing => .error "no schema given; pass it as an argument or with --file"

def compileText (schema : String) : Except String Selection :=
  (FieldQuery.compile schema).mapError Failure.message

/-- Each line with its break. -/
def unlines (lines : List String) : String := String.join (lines.map (· ++ "\n"))

def versionText : String := "apiql 0.1.0"

/-- Output of a command, or the message of its failure. -/
def output (readFile : String → Except String String) : Command → Except String String
  | .version => .ok (unlines [versionText])
  | .compile layout source => do
      let selection ← compileText (← source.read readFile)
      match layout with
      | .outline => return unlines (selection.outline false)
      | .json => return unlines [selection.toJson.indented]
  | .fingerprint source => do
      return unlines [FieldQuery.fingerprint (← source.read readFile)]
  | .explain source => do
      let schema ← source.read readFile
      let selection ← compileText schema
      return unlines
        (["Fingerprint: " ++ FieldQuery.fingerprint schema,
          "Calls: " ++ toString selection.length, ""] ++ selection.outline true)

/-- What a finished process leaves. -/
structure Outcome where
  exit : Nat
  stdout : String
  stderr : String
deriving DecidableEq

def usage : String :=
  unlines ["Usage: <compile|fingerprint|explain> [SCHEMA | --file FILE]",
    "       compile [--format <pretty|json>] [SCHEMA | --file FILE]"]

/-- Failures exit with 1 and improper usage with 2. -/
def run (readFile : String → Except String String) (args : List String) : Outcome :=
  match ofArgs? args with
  | none => ⟨2, "", usage⟩
  | some command =>
      match output readFile command with
      | .ok text => ⟨0, text, ""⟩
      | .error message => ⟨1, "", unlines ["Error: " ++ message]⟩

/-- Paths of the files that a command reads. -/
def files : Command → List String
  | .compile _ (.file path) | .fingerprint (.file path) | .explain (.file path) => [path]
  | _ => []

end Command

end FieldQuery
