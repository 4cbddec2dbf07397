/-!
# Lost provenance

The one failure of a transformation that a caller may want to act on
(`SchemaGraph.LostMarkers`): markers that were on the reachable nodes before are on no
reachable node afterwards.
-/

namespace SchemaGraph

/-- Provenance markers that a transformation dropped. -/
structure LostMarkers where
  /-- The title of the transformation. -/
  title : String
  count : Nat
  /-- The markers, ascending. -/
  missing : List Nat
deriving DecidableEq

/-- Numbers in brackets, separated by commas. -/
def LostMarkers.listText (markers : List Nat) : String :=
  "[" ++ ", ".intercalate (markers.map fun n => n.repr) ++ "]"

/-- The text of the failure. -/
def LostMarkers.message (e : LostMarkers) : String :=
  s!"{e.title}: {e.count} type attribute(s) not propagated: {listText e.missing}"

end SchemaGraph
