import SchemaGraph.Generation.Listing
import SchemaGraph.LostMarkers
import SchemaGraph.Rebuild.Basic

/-!
# Transformations

The ways to derive a generation from another one: replace groups of nodes
(`SchemaGraph.Generation.replace`), substitute nodes (`SchemaGraph.Generation.substitute`), and
what is made of these – collecting unreachable nodes, removing indirections, and rebuilding
until the graph stops shrinking (`SchemaGraph.Generation.settle`).

A transformation can fail in one way that a caller may act on: with provenance tracking on,
every marker that was reachable before has to be reachable afterwards, unless a script
declared the loss.
-/

namespace SchemaGraph

/-- What transformations leave behind besides their result. -/
structure Log where
  /-- The listings of announced transformations. -/
  printed : String
  events : List Event
deriving Inhabited

/-- Transformations: they keep a log, may lose markers, and may meet a fault. -/
abbrev Transform := ExceptT LostMarkers (StateT Log (Except Fault))

namespace Transform

/-- A value, or a fault. -/
def ofExcept {α : Type} (result : Except Fault α) : Transform α :=
  ExceptT.lift (StateT.lift result)

/-- Add text to the log. -/
def print (text : String) : Transform Unit :=
  ExceptT.lift (modify fun log => { log with printed := log.printed ++ text })

/-- Add events to the log. -/
def record (events : List Event) : Transform Unit :=
  ExceptT.lift (modify fun log => { log with events := log.events ++ events })

/-- The result of a transformation and the log it leaves. -/
def start {α : Type} (t : Transform α) : Except Fault (Except LostMarkers α × Log) :=
  t.run.run ⟨"", []⟩

end Transform

/-- What a transformation made of its source. -/
inductive Outcome
  /-- There was nothing to do. -/
  | unchanged
  | derived (generation : Generation)

/-- The generation after a transformation of `source`. -/
def Outcome.after (source : Generation) : Outcome → Generation
  | unchanged => source
  | derived generation => generation

/-- What every transformation is told. -/
structure Settings where
  title : String
  /-- Where the kinds of primitive nodes go. -/
  mapping : StringMapping
  /-- Whether the properties of classes are sorted by name. -/
  alphabetize : Bool
  /-- Whether to print the graph before and after. -/
  announce : Bool

namespace Generation

/-- Print a listing under a headline. -/
def printListing (g : Generation) (title moment : String) : Transform Unit := do
  Transform.print s!"\n# {title}: {moment} (generation {g.serial})\n"
  Transform.print (← Transform.ofExcept g.listing)

/-- What reachable markers the later generation lost, if provenance is tracked. -/
def lostMarkers? (before after : Generation) (title : String) :
    Except Fault (Option LostMarkers) := do
  if !before.options.trackProvenance then return none
  let kept ← after.markers
  let missing := ((← before.markers).diff kept).toList
  return if missing.isEmpty then none else some ⟨title, missing.length, missing⟩

/-- Derive a generation by a plan. `accept` may object to the finished workspace. -/
def derive (g : Generation) (plan : Plan) (settings : Settings)
    (accept : Workspace → Except Fault Unit) : Transform (Generation × Bool) := do
  let printing := settings.announce || g.announced
  if printing then g.printListing settings.title "before"
  let d : Derivation := {
    old := g, plan, mapping := settings.mapping, alphabetize := settings.alphabetize }
  let w ← Transform.ofExcept d.run
  Transform.ofExcept (accept w)
  Transform.record w.journal
  let built ← Transform.ofExcept (Generation.ofDraft w.draft)
  let new := { built with announced := g.announced }
  if printing then new.printListing settings.title "after"
  unless w.lossDeclared do
    if let some lost := ← Transform.ofExcept (g.lostMarkers? new settings.title) then throw lost
  return (new, w.draft.forwarded)

/-- Substitute nodes: every occurrence of a key of `map` is replaced by its value, which takes
in the attributes of the key. Without entries nothing is done, unless `force` is set. -/
def substitute (g : Generation) (settings : Settings) (map : OrderedMap Ref Ref) (force : Bool) :
    Transform Outcome := do
  if map.isEmpty && !force then return .unchanged
  let (new, _) ← g.derive (.substitute map) settings fun w =>
    if w.draft.forwarded then .error (.substitutionForwarded settings.title) else .ok ()
  return .derived new

/-- Rebuild from the roots only, so that unreachable nodes are left behind. -/
def collect (g : Generation) (alphabetize announce : Bool) : Transform Outcome :=
  g.substitute ⟨"garbage collect", .preserving, alphabetize, announce⟩ ∅ true

/-! ### Indirections -/

/-- The reachable indirections, each with the node it stands for. -/
def indirections (g : Generation) : List (Ref × Ref) :=
  g.reachable.filterMap fun r =>
    ((g.node? r.index).bind Node.indirectionTarget?).map fun target => (r, target)

/-- The last node of a chain of indirections that has no more than `length` of them. -/
def chainEnd (indirections : List (Ref × Ref)) : (length : Nat) → Ref → Ref
  | 0, r => r
  | length + 1, r =>
    match lookupEntry r indirections with
    | none => r
    | some target => chainEnd indirections length target

/-- The indirections, with an edge from each to the one it stands for. -/
def chains (indirections : List (Ref × Ref)) : Except Fault (Digraph Ref) :=
  let sources := indirections.map Prod.fst
  Digraph.ofSuccessors sources false fun r =>
    ((lookupEntry r indirections).filter (· ∈ sources)).toList

/-- Replace every indirection by the node at the end of its chain. -/
def removeIndirections (g : Generation) (alphabetize announce : Bool) : Transform Outcome := do
  let indirections := g.indirections
  if indirections.isEmpty then return .unchanged
  if (← Transform.ofExcept (chains indirections)).isCyclic then
    Transform.ofExcept (.error .indirectionCycle)
  let map := OrderedMap.ofList <| indirections.map fun (r, _) =>
    (r, chainEnd indirections indirections.length r)
  g.substitute ⟨"remove indirection intersections", .preserving, alphabetize, announce⟩ map false

/-! ### Replacement -/

/-- Replace each group by the node that its script builds. If a rebuilt node turned out to
exist already, the indirections this left are removed. Without groups nothing is done, unless
`force` is set. -/
def replace (g : Generation) (settings : Settings) (groups : List Group) (force : Bool) :
    Transform Outcome := do
  if groups.isEmpty && !force then return .unchanged
  let (new, forwarded) ← g.derive (.replace groups) settings fun _ => .ok ()
  if forwarded then
    return .derived ((← new.removeIndirections settings.alphabetize settings.announce).after new)
  return .derived new

/-- One rebuilding of the whole graph. -/
def rebuildOnce (g : Generation) (alphabetize announce : Bool) : Transform Generation := do
  return (← g.replace ⟨"fixed point", .preserving, alphabetize, announce⟩ [] true).after g

/-- Rebuild until the number of reachable nodes stops shrinking. -/
def settle (g : Generation) (alphabetize announce : Bool) : Transform Generation := do
  let next ← g.rebuildOnce alphabetize announce
  if next.reachable.length < g.reachable.length then next.settle alphabetize announce
  else return next
termination_by g.reachable.length

end Generation

end SchemaGraph
