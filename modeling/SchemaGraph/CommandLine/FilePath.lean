/-!
# Paths

The little that is done with paths as texts: appending a name (`SchemaGraph.FilePath.join`)
and taking the directory of a file (`SchemaGraph.FilePath.parent?`). A path is a list of
pieces between slashes; empty pieces and dots stand for the directory reached so far.
-/

namespace SchemaGraph.FilePath

/-- What stands between slashes. -/
def splitPieces : List Char → List (List Char)
  | [] => [[]]
  | '/' :: rest => [] :: splitPieces rest
  | c :: rest =>
    match splitPieces rest with
    | [] => [[c]]
    | piece :: pieces => (c :: piece) :: pieces

/-- The pieces of a path. -/
def pieces (path : String) : List String := (splitPieces path.toList).map String.ofList

/-- Whether a path starts at the root of the file system. -/
def isAbsolute (path : String) : Bool := path.startsWith "/"

/-- Whether a piece stands for the directory reached so far. -/
def isStay (piece : String) : Bool := piece = "" || piece = "."

/-- Whether a path stands for the working directory by a leading dot. -/
def isCurrent (path : String) : Bool :=
  match pieces path with
  | "." :: rest => rest.all isStay
  | _ => false

/-- A name below a path; a slash is put between them unless one is there. -/
def append (path name : String) : String :=
  if path.endsWith "/" then path ++ name else path ++ "/" ++ name

/-- A name below a path, without the path if that is the working directory. -/
def join (path name : String) : String := if isCurrent path then name else append path name

/-- The pieces up to the last one that leads somewhere. -/
def trimStays (pieces : List String) : List String := (pieces.reverse.dropWhile isStay).reverse

/-- The pieces above the last one that leads somewhere. -/
def above (pieces : List String) : List String := trimStays (trimStays pieces).dropLast

/-- What stands in front of the last name of a path, if anything does: the directory that the
path lies in. -/
def parent? (path : String) : Option String :=
  match pieces path with
  | "" :: body =>
    if (trimStays body).isEmpty then none else some ("/" ++ "/".intercalate (above body))
  | "." :: body =>
    if (trimStays body).isEmpty then none else some ("/".intercalate ("." :: above body))
  | body => if (above body).isEmpty then none else some ("/".intercalate (above body))

example : parent? "a//b/./c.txt/" = some "a//b" := by decide +kernel

example : parent? "./o.txt" = some "." ∧ parent? "o.txt" = none := by decide +kernel

end SchemaGraph.FilePath
