import SchemaGraph.Rebuild.Plan

/-!
# Rebuilding a generation

The derivation of a generation from an old one (`SchemaGraph.Derivation.run`). Old nodes are
rebuilt when they are first asked for, starting from the roots, so what no root reaches is
left behind. A node that is still being rebuilt when a cycle leads back to it gets a
placeholder, a reserved slot that others point to until the node is there.

The recursion is bounded by the old nodes and the groups that are not being rebuilt or
replaced yet: `SchemaGraph.Derivation.visit` goes one level deeper only by starting on one
of them.
-/

namespace SchemaGraph

/-- What happened while a generation was rebuilt. -/
inductive Event
  /-- A group's script was started, with this reference for its replacement. -/
  | replacing (group : Nat) (members : List Ref) (forwarding : Ref)
  /-- A script left a reference. -/
  | remark (ref : Ref)
deriving DecidableEq

/-- A derived generation on its way. -/
structure Workspace where
  /-- The new generation. -/
  draft : Draft
  /-- The new counterparts of old nodes, by old index. -/
  counterparts : OrderedMap Nat Ref
  /-- The slots reserved for old nodes that are being rebuilt, by old index. -/
  placeholders : OrderedMap Nat Ref
  /-- Whether a script declared that it drops attributes. -/
  lossDeclared : Bool
  /-- What happened so far. -/
  journal : List Event

/-- Actions on a derived generation. -/
abbrev Rebuild := StateT Workspace (Except Fault)

namespace Rebuild

/-- Run an action on the new generation. -/
def build {α : Type} (action : Build α) : Rebuild α := fun w => do
  let (a, draft) ← action w.draft
  return (a, { w with draft })

/-- Make `new` the counterpart of an old node. -/
def setCounterpart (index : Nat) (new : Ref) : Rebuild Unit :=
  modify fun w => { w with counterparts := w.counterparts.insert index new }

/-- Add an event to the journal. -/
def record (event : Event) : Rebuild Unit :=
  modify fun w => { w with journal := w.journal ++ [event] }

/-- The placeholder of an old node that is being rebuilt, reserved when first needed. -/
def placeholder (index : Nat) : Rebuild Ref := do
  match (← get).placeholders.find? index with
  | some slot => return slot
  | none =>
    let slot ← build Build.reserve
    modify fun w => { w with placeholders := w.placeholders.insert index slot }
    return slot

/-- Give up the placeholder of an old node, if it has one. -/
def takePlaceholder (index : Nat) : Rebuild (Option Ref) := fun w =>
  .ok (w.placeholders.find? index, { w with placeholders := w.placeholders.erase index })

/-- Run a script. `visit` finds the counterpart of an old node. -/
def runScript {α : Type} (visit : Ref → Rebuild Ref) : Script α → Rebuild α
  | .done result => return result
  | .visiting old next => do
    let new ← visit old
    runScript visit (next new)
  | .editing edit next => do
    let answer ← build edit.run
    runScript visit (next answer)
  | .inspecting next => do
    let w ← get
    runScript visit (next w.draft)
  | .remarking ref next => do
    record (.remark ref)
    runScript visit next
  | .declaringLoss next => do
    modify fun w => { w with lossDeclared := true }
    runScript visit next
  | .failing fault => throw fault

end Rebuild

/-- An old generation, and how a new one is derived from it. -/
structure Derivation where
  old : Generation
  plan : Plan
  /-- Where the kinds of primitive nodes go. -/
  mapping : StringMapping
  /-- Whether the properties of classes are sorted by name. -/
  alphabetize : Bool

namespace Derivation

open Rebuild

/-- The serial number of the new generation. -/
def serial (d : Derivation) : Nat := d.old.serial + 1

/-- The attributes of the counterpart of an old node: its own, then those of the nodes that it
substitutes. -/
def attributes (d : Derivation) (old : Ref) : Except Fault Attributes :=
  (d.plan.sources old).foldlM (fun found source => do found.combine (← d.old.attributes source))
    (d.old.store.atIndex old.index)

/-- Store the new node of an old one, whose children are rebuilt. -/
def settle (d : Derivation) (old : Ref) (node : Node) : Rebuild Ref := do
  let attributes ← d.attributes old
  let new ← match ← takePlaceholder old.index with
    | none => build (Build.intern node attributes none)
    | some slot =>
      if d.plan.foldsCycles then build (Build.intern node attributes (some slot))
      else do
        build (Build.define slot node attributes)
        pure slot
  setCounterpart old.index new
  return new

/-- Replace a group. From now on its members are the reserved slot, and what the script
returns ends up behind it. -/
def runGroup (d : Derivation) (visit : Ref → Rebuild Ref) (number : Nat) (group : Group) :
    Rebuild Ref := do
  let slot ← build Build.reserve
  group.members.forM fun member => setCounterpart member.index slot
  record (.replacing number group.members slot)
  let replacement ← runScript visit (group.script slot)
  replacement.requireSerial d.serial
  if replacement ≠ slot then build (Build.forward slot replacement)
  return slot

/-- The counterpart of an old node, which is rebuilt if it is not there yet. `path` holds the
indices of the nodes that are being rebuilt, and `depth` is more than the number of nodes and
groups that are not. The result may be a slot whose node is not there yet. -/
def visit (d : Derivation) : (depth : Nat) → (path : List Nat) → (r : Ref) → Rebuild Ref
  | 0, _, r => placeholder r.index
  | depth + 1, path, r => do
    r.requireSerial d.old.serial
    let old := d.plan.target r
    match (← get).counterparts.find? old.index with
    | some new => return new
    | none =>
      match d.plan.groupAt? old.index with
      | some (number, group) => d.runGroup (d.visit depth path) number group
      | none =>
        let node ← d.old.nodeAt old.index
        if old.index ∈ path then placeholder old.index
        else
          let node ← node.mapChildrenM (d.visit depth (old.index :: path))
          d.settle old node

/-- The counterpart of an old node while none is being rebuilt. -/
def visitRoot (d : Derivation) : Ref → Rebuild Ref :=
  d.visit (d.old.size + d.plan.groups.length + 1) []

/-- Rebuild what the roots reach, and bind the roots of the new generation. -/
def rebuildRoots (d : Derivation) : Rebuild Unit :=
  d.old.roots.entries.forM fun (name, root) => do
    let new ← d.visitRoot root
    build (Build.addRoot name new)
    build (Build.addRootAttributes name (d.old.store.ofRoot name))

/-- The groups that no root reached, with their numbers. -/
def pendingGroups (d : Derivation) (w : Workspace) : List (Group × Nat) :=
  d.plan.groups.zipIdx.filter fun (group, _) =>
    group.members.head?.any fun first => !w.counterparts.contains first.index

/-- Rebuild everything. The groups that no root reached are replaced last. -/
def rebuildAll (d : Derivation) : Rebuild Unit := do
  d.rebuildRoots
  (d.pendingGroups (← get)).forM fun (group, number) => do
    let _ ← d.runGroup d.visitRoot number group
  unless (← get).placeholders.isEmpty do throw .placeholdersLeft

/-- An empty workspace for the new generation. -/
def workspace (d : Derivation) : Workspace where
  draft := .ofGeneration d.serial d.old.options d.mapping d.alphabetize
  counterparts := ∅
  placeholders := ∅
  lossDeclared := false
  journal := []

/-- Derive the new generation, as a workspace that is ready to be frozen. -/
def run (d : Derivation) : Except Fault Workspace :=
  match d.plan.fault? d.old.serial with
  | some fault => .error fault
  | none => do
    let ((), w) ← d.rebuildAll.run d.workspace
    return w

end Derivation

end SchemaGraph
