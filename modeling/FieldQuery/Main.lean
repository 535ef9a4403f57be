import FieldQuery.Command

/-! The program: reads the file that a command names, and prints its outcome. -/

namespace FieldQuery

def readFile (path : String) : IO (Except String String) := do
  try
    return .ok (← IO.FS.readFile path)
  catch
    | .noFileOrDirectory .. => return .error Command.noSuchFile
    | e => return .error (toString e)

end FieldQuery

def main (args : List String) : IO UInt32 := do
  let paths := ((FieldQuery.Command.ofArgs? args).map FieldQuery.Command.files).getD []
  let contents ← paths.mapM fun path => return (path, ← FieldQuery.readFile path)
  let outcome := FieldQuery.Command.run (FieldQuery.Command.readFrom contents) args
  IO.print outcome.stdout
  IO.eprint outcome.stderr
  return outcome.exit.toUInt32
