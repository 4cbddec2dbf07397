import SchemaGraph.CommandLine.FilePath
import SchemaGraph.OrderedMap

/-!
# Trees of files

Files as a value (`SchemaGraph.FileTree`): a directory lists its entries by name. What is at
the end of a list of names can be looked up (`SchemaGraph.FileTree.find?`) and replaced
(`SchemaGraph.FileTree.put`); `SchemaGraph.FileTree.files` lists all files with their paths.
-/

namespace SchemaGraph

/-- Files and the directories they lie in. -/
inductive FileTree
  | file (text : String)
  | directory (entries : List (String × FileTree))
deriving Inhabited

namespace FileTree

/-- A directory without any files. -/
def empty : FileTree := directory []

instance : EmptyCollection FileTree := ⟨empty⟩

/-- Whether a tree is a directory. -/
def isDirectory : FileTree → Bool
  | file _ => false
  | directory _ => true

/-- The entry of a directory. -/
def entry? (t : FileTree) (name : String) : Option FileTree :=
  match t with
  | file _ => none
  | directory entries => lookupEntry name entries

/-- The names in a directory, each with whether it names a directory. -/
def entries? : FileTree → Option (List (String × Bool))
  | file _ => none
  | directory entries => some (entries.map fun (name, t) => (name, t.isDirectory))

/-- The tree at the end of a list of names. -/
def find? (t : FileTree) (names : List String) : Option FileTree := names.foldlM entry? t

/-- Replace what is at the end of a list of names; missing directories on the way are made.
Nothing can be put below a file. -/
def put (t : FileTree) : List String → FileTree → FileTree
  | [], new => new
  | name :: rest, new =>
    match t with
    | file text => file text
    | directory entries =>
      directory (insertEntry name (put ((lookupEntry name entries).getD empty) rest new) entries)

mutual

/-- The files of a tree with their paths; `path` is the path of the tree. -/
def filesAt (path : String) : FileTree → List (String × String)
  | file text => [(path, text)]
  | directory entries => filesOf path entries

/-- The files of the entries of a directory. -/
def filesOf (path : String) : List (String × FileTree) → List (String × String)
  | [] => []
  | (name, t) :: rest =>
    filesAt (if path.isEmpty then name else FilePath.append path name) t ++ filesOf path rest

end

/-- The files with their paths in the tree. -/
def files (t : FileTree) : List (String × String) := filesAt "" t

/-- The tree that holds the given files. -/
def ofFiles (files : List (String × String)) : FileTree :=
  files.foldl (fun t (path, text) => t.put (FilePath.pieces path) (file text)) empty

/-! ### Positions -/

/-- A place in a tree, as the names that lead to it, the last one first. -/
abbrev Position := List String

/-- The tree at a position. -/
def atPosition? (t : FileTree) (position : Position) : Option FileTree := t.find? position.reverse

end FileTree

end SchemaGraph
