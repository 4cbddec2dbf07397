import SchemaGraph.CommandLine.FileAccess
import SchemaGraph.CommandLine.FileTree

/-!
# File systems

A tree of files with a working directory (`SchemaGraph.FileSystem`). A path is walked piece
by piece, from the root if it is absolute and from the working directory otherwise
(`SchemaGraph.FileSystem.walk?`); the directory above the root is the root. Paths and names
have a greatest length, in bytes. The state monad over a file system is a world in which jobs
can run (`SchemaGraph.FileSystem.instFileAccess`).
-/

namespace SchemaGraph

/-- A tree of files, seen from one of its directories. -/
structure FileSystem where
  /-- What the root holds. -/
  root : FileTree
  /-- Where the working directory is. -/
  here : FileTree.Position

namespace FileSystem

open FileTree (Position)

/-- The file system whose working directory, at the end of a list of names, is a given tree. -/
def nest (root : FileTree) (names : List String) (t : FileTree) : FileSystem where
  root := root.put names t
  here := names.reverse

/-- What the working directory holds. -/
def working (s : FileSystem) : FileTree := (s.root.atPosition? s.here).getD ∅

/-! ### Limits -/

/-- A name has at most this many bytes. -/
def nameLimit : Nat := 255

/-- A path has at most this many bytes. -/
def pathLimit : Nat := 4095

/-- Whether a piece of a path is short enough for a name. -/
def isName (piece : String) : Bool := piece.utf8ByteSize ≤ nameLimit

/-- Whether a text can be used as a path: it is not empty, it is short enough, and it holds no
null character. -/
def isPath (path : String) : Bool :=
  !path.isEmpty && path.utf8ByteSize ≤ pathLimit && !path.toList.contains '\x00'

/-! ### Walking along paths -/

/-- Where the walk along a path starts. -/
def start (s : FileSystem) (path : String) : Position :=
  if FilePath.isAbsolute path then [] else s.here

/-- One step of a walk. A piece can only be followed from a directory, and only if it is short
enough. -/
def step? (root : FileTree) (position : Position) (piece : String) : Option Position := do
  let there ← root.atPosition? position
  if !there.isDirectory || !isName piece then none
  if FilePath.isStay piece then some position
  else if piece = ".." then some position.tail
  else do
    let _ ← there.entry? piece
    some (piece :: position)

/-- Where a path leads. -/
def walk? (s : FileSystem) (path : String) : Option Position :=
  if isPath path then (FilePath.pieces path).foldlM (step? s.root) (s.start path) else none

/-- What is at a path. -/
def lookup? (s : FileSystem) (path : String) : Option FileTree :=
  (s.walk? path).bind s.root.atPosition?

/-- The text of the file at a path. -/
def text? (s : FileSystem) (path : String) : Option String :=
  match s.lookup? path with
  | some (.file text) => some text
  | _ => none

/-! ### Changing files -/

/-- One step of a walk that makes the directories it needs. -/
def makeStep? (walked : FileTree × Position) (piece : String) : Option (FileTree × Position) :=
  let (root, position) := walked
  match step? root position piece with
  | some next => some (root, next)
  | none =>
    match root.atPosition? position with
    | some (.directory _) =>
      if isName piece then some (root.put (position.reverse ++ [piece]) ∅, piece :: position)
      else none
    | _ => none

/-- The files with the directories of a path. -/
def withDirectories? (s : FileSystem) (path : String) : Option FileSystem := do
  if !isPath path then none
  let (root, position) ← (FilePath.pieces path).foldlM makeStep? (s.root, s.start path)
  if (root.atPosition? position).any FileTree.isDirectory then some { s with root } else none

/-- The files with a text at a path: the directory it lies in has to be there, and only a file
can be replaced. -/
def withText? (s : FileSystem) (path text : String) : Option FileSystem := do
  if !isPath path then none
  let pieces := FilePath.pieces path
  let name ← pieces.getLast?
  if FilePath.isStay name || name = ".." || !isName name then none
  let position ← pieces.dropLast.foldlM (step? s.root) (s.start path)
  let there ← s.root.atPosition? position
  if !there.isDirectory || (there.entry? name).any FileTree.isDirectory then none
  return { s with root := s.root.put (position.reverse ++ [name]) (.file text) }

/-- Jobs can run on a file system. -/
instance instFileAccess : FileAccess (StateM FileSystem) where
  readText? path := do return (← get).text? path
  isPresent path := do return ((← get).lookup? path).isSome
  isDirectory path := do return ((← get).lookup? path).any FileTree.isDirectory
  entries? path := do return ((← get).lookup? path).bind FileTree.entries?
  createDirectories path := do
    match (← get).withDirectories? path with
    | some s => set s; return true
    | none => return false
  writeText path text := do
    match (← get).withText? path text with
    | some s => set s; return true
    | none => return false

/-! ### A small file system -/

/-- The directory `/tmp/d` with one file. -/
private def sampleSystem : FileSystem := nest ∅ ["tmp", "d"] (.ofFiles [("in", "1")])

example : sampleSystem.text? "in" = some "1" ∧ sampleSystem.text? "/tmp/../tmp/d//./in" = some "1" ∧
    sampleSystem.text? "in/" = none := by
  decide +kernel

example : sampleSystem.walk? "../../../.." = some [] ∧ sampleSystem.walk? "x/.." = none := by
  decide +kernel

example : ((sampleSystem.withText? "../o" "2").bind (·.text? "/tmp/o")) = some "2" := by
  decide +kernel

end FileSystem

end SchemaGraph
