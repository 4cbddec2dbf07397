import SchemaGraph.CommandLine.FileAccess
import SchemaGraph.CommandLine.FilePath

/-!
# Path patterns

Patterns that select files by their paths (`SchemaGraph.PathPattern`). In a name, `?` stands
for one character, `*` for any number of characters, and brackets for one character of a
set; a component `**` stands for any directories one inside the other. A pattern is read
with `SchemaGraph.PathPattern.ofText?`, and `SchemaGraph.PathPattern.select` lists the paths
that it selects, the names of each directory in ascending order.
-/

namespace SchemaGraph

namespace PathPattern

/-- An inclusive range of characters. -/
structure CharRange where
  first : Char
  last : Char
deriving DecidableEq

/-- Whether a character lies in a range. -/
def CharRange.contains (r : CharRange) (c : Char) : Bool := r.first ≤ c && c ≤ r.last

/-- A part of a name. -/
inductive Token
  | char (c : Char)
  | anyChar
  | anyText
  | oneOf (ranges : List CharRange)
  | noneOf (ranges : List CharRange)
deriving DecidableEq

/-- A component of a pattern, which stands for names of entries or for a descent. -/
inductive Component
  | name (tokens : List Token)
  /-- Any directories one inside the other. -/
  | descent
deriving DecidableEq

/-! ### Matching names -/

/-- Whether a token that stands for one character stands for this one. -/
def Token.isMatch (t : Token) (c : Char) : Bool :=
  match t with
  | char d => c = d
  | anyChar => true
  | anyText => false
  | oneOf ranges => ranges.any (·.contains c)
  | noneOf ranges => !ranges.any (·.contains c)

/-- The ends of a text, from all of it to none of it. -/
def ends : List Char → List (List Char)
  | [] => [[]]
  | c :: rest => (c :: rest) :: ends rest

/-- What a token can leave of one of the given ends of a text, the longest first. Any text can
be skipped from the longest end, so that the other ends add nothing to it. -/
def Token.leave (t : Token) (given : List (List Char)) : List (List Char) :=
  match t with
  | anyText => (given.head?.map ends).getD []
  | t => given.filterMap fun
    | [] => none
    | c :: rest => if t.isMatch c then some rest else none

/-- Whether the tokens stand for a text: one after the other, they can leave nothing of it. All
the ends that the tokens so far can leave are followed at once, so that no part of the text is
tried twice for the same token. -/
def isMatch (tokens : List Token) (text : List Char) : Bool :=
  (tokens.foldl (fun given t => t.leave given) [text]).contains []

example : isMatch [.anyText, .char 'a', .anyText, .char 'b'] ['x', 'a', 'a', 'b'] = true ∧
    isMatch [.anyText, .char 'a', .anyText, .char 'b'] ['a', 'b', 'a'] = false ∧
    isMatch [.anyText] [] = true ∧ isMatch [.anyChar, .anyText] [] = false := by
  decide

/-- The one text that the tokens stand for, if none of them is a wildcard. -/
def literal? : List Token → Option (List Char)
  | [] => some []
  | .char c :: rest => (literal? rest).map (c :: ·)
  | _ :: _ => none

/-! ### Reading patterns -/

/-- The ranges written between brackets: `a-z`, or single characters. -/
def rangesOf : List Char → List CharRange
  | first :: '-' :: last :: rest => ⟨first, last⟩ :: rangesOf rest
  | c :: rest => ⟨c, c⟩ :: rangesOf rest
  | [] => []

/-- The set whose brackets were just opened, and the text after them. A closing bracket in
first place belongs to the set, which has at least one character. -/
def bracket? : List Char → Option (List CharRange × List Char)
  | [] => none
  | c :: rest =>
    match rest.dropWhile (· ≠ ']') with
    | [] => none
    | _ :: after => some (rangesOf (c :: rest.takeWhile (· ≠ ']')), after)

theorem length_lt_of_bracket? {text after : List Char} {ranges : List CharRange}
    (h : bracket? text = some (ranges, after)) : after.length < text.length := by
  cases text with
  | nil => simp [bracket?] at h
  | cons c rest =>
    have shorter : (rest.dropWhile (· ≠ ']')).length ≤ rest.length :=
      (List.dropWhile_sublist _).length_le
    simp only [bracket?] at h
    split at h
    · simp at h
    · next heq =>
      rw [heq] at shorter
      simp only [Option.some.injEq, Prod.mk.injEq] at h
      obtain ⟨-, rfl⟩ := h
      simp only [List.length_cons] at shorter ⊢
      omega

/-- The tokens of a name. Two stars in a row are refused, and so are brackets that are not
closed. -/
def tokens? : List Char → Option (List Token)
  | [] => some []
  | '?' :: rest => (tokens? rest).map (.anyChar :: ·)
  | '*' :: '*' :: _ => none
  | '*' :: rest => (tokens? rest).map (.anyText :: ·)
  | '[' :: '!' :: rest =>
    match h : bracket? rest with
    | none => none
    | some (ranges, after) =>
      have := length_lt_of_bracket? h
      (tokens? after).map (.noneOf ranges :: ·)
  | '[' :: rest =>
    match h : bracket? rest with
    | none => none
    | some (ranges, after) =>
      have := length_lt_of_bracket? h
      (tokens? after).map (.oneOf ranges :: ·)
  | c :: rest => (tokens? rest).map (.char c :: ·)
termination_by text => text.length

/-- A component of a pattern. -/
def Component.ofText? (text : String) : Option Component :=
  if text = "**" then some .descent else (tokens? text.toList).map .name

end PathPattern

/-- A pattern of paths. -/
structure PathPattern where
  /-- Whether paths start at the root of the file system. -/
  absolute : Bool
  components : List PathPattern.Component
  /-- Whether only directories are selected. -/
  directoriesOnly : Bool
deriving DecidableEq

namespace PathPattern

/-- Whether a path is written as a pattern. -/
def isPattern (path : String) : Bool := path.toList.any fun c => c ∈ ['*', '?', '[', '\x7b']

/-- The components as texts. A slash at the end starts no component. -/
def componentTexts (text : String) : List String :=
  let pieces := FilePath.pieces text
  if pieces.getLast? = some "" then pieces.dropLast else pieces

/-- The pattern that a text writes. -/
def ofText? (text : String) : Option PathPattern := do
  let absolute := FilePath.isAbsolute text
  let relative := if absolute then (text.drop 1).copy else text
  return {
    absolute
    components := ← (componentTexts relative).mapM Component.ofText?
    directoriesOnly := text.endsWith "/" }

/-! ### Selecting paths -/

section Select

variable {m : Type → Type} [Monad m] [FileAccess m]

/-- A path that a search has come to. -/
structure Place where
  path : String
  /-- Whether a directory was seen there. -/
  directory : Bool

/-- Look what is at a path. -/
def Place.ofPath (path : String) : m Place := return ⟨path, ← FileAccess.isDirectory path⟩

/-- The paths that a search finds, or nothing if a directory could not be listed. -/
abbrev Search (m : Type → Type) := OptionT m (List String)

/-- What is in a directory, by name, the names ascending. What its listing says of an entry is
not asked again. -/
def Place.children (place : Place) : OptionT m (List (String × Place)) := do
  let entries ← OptionT.mk (FileAccess.entries? place.path)
  return (entries.mergeSort fun a b => a.1 ≤ b.1).map fun (name, directory) =>
    (name, ⟨FilePath.join place.path name, directory⟩)

/-- Run a search on every item. -/
def gather {α : Type} (items : List α) (search : α → Search m) : Search m := do
  return (← items.mapM search).flatten

/-- Directories are searched to this depth; a path that a file system takes has fewer
pieces. -/
def depthLimit : Nat := 4096

/-- Search everything below a directory: `found` is asked about every name with its place,
before what lies below it. -/
def below (found : String → Place → Search m) : Nat → Place → Search m
  | 0, _ => return []
  | depth + 1, place => do
    gather (← place.children) fun (name, child) => do
      let here ← found name child
      if child.directory then return here ++ (← below found depth child) else return here

/-- The directories above and here, which only a pattern with a leading dot stands for. -/
def specialNames (tokens : List Token) : List String :=
  if tokens.head? = some (.char '.') then
    ["..", "."].filter fun name => isMatch tokens name.toList
  else []

/-- The paths that the components select below a place. -/
def selectBelow (directoriesOnly : Bool) : List Component → Place → Search m
  | [], place => return if directoriesOnly && !place.directory then [] else [place.path]
  | .name tokens :: rest, place => do
    match literal? tokens with
    | some name =>
      let name := String.ofList name
      let next := FilePath.join place.path name
      let there ← if name = "." || name = ".." then pure place.directory
        else FileAccess.isPresent next
      if there then selectBelow directoriesOnly rest (← Place.ofPath next) else return []
    | none =>
      if !place.directory then return []
      let children ← place.children
      let special ← gather (specialNames tokens) fun name => do
        selectBelow directoriesOnly rest (← Place.ofPath (FilePath.append place.path name))
      let ordinary ← gather (children.filter fun (name, _) => isMatch tokens name.toList)
        fun (_, child) => selectBelow directoriesOnly rest child
      return special ++ ordinary
  | [.descent], place => do
    if !place.directory then return []
    below (fun _ child => return if child.directory then [child.path] else []) depthLimit place
  | .descent :: .descent :: rest, place => selectBelow directoriesOnly (.descent :: rest) place
  | .descent :: .name tokens :: rest, place => do
    if !place.directory then return []
    below (fun name child =>
      if isMatch tokens name.toList then selectBelow directoriesOnly rest child else return [])
      depthLimit place

/-- The paths that a pattern selects. -/
def select (p : PathPattern) : Search m := do
  selectBelow p.directoriesOnly p.components (← Place.ofPath (if p.absolute then "/" else "."))

end Select

end PathPattern

end SchemaGraph
