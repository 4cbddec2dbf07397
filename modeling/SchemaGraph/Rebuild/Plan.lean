import SchemaGraph.Generation.Basic
import SchemaGraph.Rebuild.Script

/-!
# Plans

How a new generation differs from the one it is derived from (`SchemaGraph.Plan`): groups of
old nodes are replaced by new ones, or old nodes are substituted by other old nodes. A plan
has to fit the old generation; `SchemaGraph.Plan.fault?` says what is wrong with it.
-/

namespace SchemaGraph

/-- How to derive a generation. -/
inductive Plan
  /-- Replace each group by what its script builds. -/
  | replace (groups : List Group)
  /-- Substitute each key by its value, whose attributes take in those of the key. -/
  | substitute (map : OrderedMap Ref Ref)

namespace Plan

/-- The first group with a member at an index, and its number. -/
def findGroup? (index : Nat) : (number : Nat) → List Group → Option (Nat × Group)
  | _, [] => none
  | number, group :: rest =>
    if group.members.any (·.index = index) then some (number, group)
    else findGroup? index (number + 1) rest

/-- What is wrong with a member of the group that comes after `earlier`, if anything. -/
def memberFault? (serial : Nat) (earlier : List Group) (member : Ref) : Option Fault :=
  if member.serial ≠ serial then some (.wrongGeneration member serial)
  else (findGroup? member.index 0 earlier).map fun (first, _) =>
    .groupOverlap member first earlier.length

/-- What is wrong with a list of groups that comes after `earlier`, if anything: groups must
not be empty, and no node may be in two of them. -/
def groupsFault? (serial : Nat) (earlier : List Group) : List Group → Option Fault
  | [] => none
  | group :: rest =>
    if group.members.isEmpty then some (.emptyGroup earlier.length)
    else (group.members.findSome? (memberFault? serial earlier)).or
      (groupsFault? serial (earlier ++ [group]) rest)

/-- What is wrong with one entry of a substitution, if anything: no value may be a key. -/
def entryFault? (serial : Nat) (map : OrderedMap Ref Ref) (entry : Ref × Ref) : Option Fault :=
  if entry.1.serial ≠ serial then some (.wrongGeneration entry.1 serial)
  else if entry.2.serial ≠ serial then some (.wrongGeneration entry.2 serial)
  else if map.contains entry.2 then some (.targetSubstituted entry.2)
  else none

/-- Why a plan does not fit generation `serial`, if it does not. -/
def fault? (serial : Nat) : Plan → Option Fault
  | replace groups => groupsFault? serial [] groups
  | substitute map => map.entries.findSome? (entryFault? serial map)

/-- The groups of a plan. -/
def groups : Plan → List Group
  | replace groups => groups
  | substitute _ => []

/-- The group with a member at an index, and its number. -/
def groupAt? (p : Plan) (index : Nat) : Option (Nat × Group) := findGroup? index 0 p.groups

/-- The old node that is rebuilt where `r` stands. -/
def target (p : Plan) (r : Ref) : Ref :=
  match p with
  | replace _ => r
  | substitute map => (map.find? r).getD r

/-- The old nodes that are substituted by `r`. -/
def sources (p : Plan) (r : Ref) : List Ref :=
  match p with
  | replace _ => []
  | substitute map => (map.entries.filter (·.2 = r)).map Prod.fst

/-- Whether a node on a cycle may turn out to be one that exists already. In a substitution
it never is: such nodes are left to a later pass. -/
def foldsCycles : Plan → Bool
  | replace _ => true
  | substitute _ => false

end Plan

end SchemaGraph
