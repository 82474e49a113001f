import ViewTemplate.Command

/-! # Entry point

Reads what the command line asks for, and prints what the command leaves behind.
-/

namespace ViewTemplate.Command

/-- The reason why a file cannot be read. -/
def readFailure : IO.Error → String
  | .noFileOrDirectory _ code _ => "No such file or directory (os error " ++ toString code ++ ")"
  | e => toString e

/-- Reads a file, or gives the reason why it cannot be read. -/
def readFile (path : String) : IO (Except String String) := do
  try
    pure (.ok (← IO.FS.readFile path))
  catch e =>
    pure (.error (readFailure e))

/-- Reads the files of a request, by their paths. -/
def readSources (request : Request) : IO Sources := do
  let files ← request.paths.mapM fun path => do pure (path, ← readFile path)
  let input ← if request.readsInput then (← IO.getStdin).readToEnd else pure ""
  pure {
    file := fun path => (files.lookup path).getD (.error "No such file or directory (os error 2)")
    input }

end ViewTemplate.Command

open ViewTemplate.Command in
/-- Runs the command. -/
def main (words : List String) : IO UInt32 := do
  let request := Request.ofWords words
  let outcome := request.run (← readSources request)
  IO.print outcome.output
  IO.eprint (outcome.errors.getD "error: invalid arguments\n\nFor more information, try '--help'.\n")
  pure outcome.code.toUInt32
