/-!
# Access to files

What the command line needs of the world around it (`SchemaGraph.FileAccess`): reading and
writing texts, and looking into directories. A monad that offers this can run a job; the
disk is one such world, and a tree of files held as a value is another.
-/

namespace SchemaGraph

/-- A monad in which files can be read and written by their paths. -/
class FileAccess (m : Type → Type) where
  /-- The text of a file, if there is a readable one at the path. -/
  readText? : String → m (Option String)
  /-- Whether there is anything at the path. -/
  isPresent : String → m Bool
  /-- Whether there is a directory at the path. -/
  isDirectory : String → m Bool
  /-- The names in a directory, if it can be listed, each with whether it names a directory. -/
  entries? : String → m (Option (List (String × Bool)))
  /-- Make a directory and those it lies in, and tell whether it is there now. -/
  createDirectories : String → m Bool
  /-- Write a file, replacing the one that is there, and tell whether this worked. -/
  writeText : String → String → m Bool

/-- A monad over one with files has them too. -/
instance FileAccess.lift {m n : Type → Type} [MonadLift m n] [FileAccess m] : FileAccess n where
  readText? path := MonadLift.monadLift (FileAccess.readText? path : m _)
  isPresent path := MonadLift.monadLift (FileAccess.isPresent path : m _)
  isDirectory path := MonadLift.monadLift (FileAccess.isDirectory path : m _)
  entries? path := MonadLift.monadLift (FileAccess.entries? path : m _)
  createDirectories path := MonadLift.monadLift (FileAccess.createDirectories path : m _)
  writeText path text := MonadLift.monadLift (FileAccess.writeText path text : m _)

end SchemaGraph
