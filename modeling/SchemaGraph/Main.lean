import SchemaGraph.CommandLine.Run
import SchemaGraph.CommandLine.Usage

/-!
# The program

Jobs run on the disk. A result goes to the standard output; everything else that is printed
goes to the error output. The exit code is 0 for a result or help, 2 for a command line that
is refused, and 1 for a job that failed.
-/

namespace SchemaGraph

/-- What an action gives, if it succeeds. -/
def attempt {α : Type} (action : IO α) : IO (Option α) :=
  try return some (← action) catch _ => return none

/-- Files on the disk. A path is there if it has an absolute form, and it is a directory if
it can be followed by a dot. Directories are not listed: a pattern that has to look into one
is left to the shell. -/
instance : FileAccess IO where
  readText? path := attempt (IO.FS.readFile path)
  isPresent path := do return (← attempt (IO.FS.realPath path)).isSome
  isDirectory path := do return (← attempt (IO.FS.realPath (path ++ "/."))).isSome
  entries? _ := return none
  createDirectories path := do return (← attempt (IO.FS.createDirAll path)).isSome
  writeText path text := do return (← attempt (IO.FS.writeFile path text)).isSome

/-- Run a command line, and give the exit code. -/
def runOnDisk (words : List String) : IO UInt32 := do
  match Job.ofWords words with
  | .error .help =>
    IO.println UsageError.help.message
    return 0
  | .error e =>
    IO.eprintln ("error: " ++ e.message)
    return 2
  | .ok job =>
    let (result, printed) ← (job.run (m := IO)).start
    IO.eprint printed
    match result with
    | .ok text =>
      IO.print text
      return 0
    | .error e =>
      IO.eprintln ("error: " ++ e.message)
      return 1

end SchemaGraph

/-- Run the command line of the program. -/
def main (words : List String) : IO UInt32 := SchemaGraph.runOnDisk words
