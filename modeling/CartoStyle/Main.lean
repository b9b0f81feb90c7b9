import CartoStyle.Command

/-!
The program: the files that its arguments name are read, the command is run,
and its texts are printed.
-/

open CartoStyle

def fileContent (path : String) : IO (Option String) := do
  try
    return some (← IO.FS.readFile path)
  catch _ => return none

/-- The names of files that some arguments may mean, with the contents of those that exist. -/
def filesNamed (arguments : List String) : IO (List (String × String)) := do
  match Command.Invocation.ofArguments? arguments with
  | none | some .version => return []
  | some (.request request) =>
    let settings := match request.settings with
      | none => []
      | some path => [path, path ++ ".toml"]
    let found ← (request.path :: settings).mapM fun path => do
      return (← fileContent path).map (path, ·)
    return found.filterMap id

def main (arguments : List String) : IO UInt32 := do
  let files ← filesNamed arguments
  let outcome := Command.run arguments (files.lookup ·)
  IO.eprint outcome.stderr
  IO.print outcome.stdout
  return outcome.code.toUInt32
