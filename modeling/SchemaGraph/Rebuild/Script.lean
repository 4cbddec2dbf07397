import SchemaGraph.Draft

/-!
# Replacement scripts

What builds the node that replaces a group of old nodes, as data (`SchemaGraph.Script`). A
script asks for the new counterpart of an old node, runs operations on the new generation and
looks at it, and may go on in any way from what it is told. So every replacement that can be
written is a script, and what holds of all of them is proved by induction.

Scripts form a monad; `SchemaGraph.Script.visit` and its like are the single requests.
-/

namespace SchemaGraph

/-- A computation that runs inside the rebuilding of a generation. -/
inductive Script (α : Type)
  /-- Nothing more to do. -/
  | done (result : α)
  /-- Ask for the counterpart of an old node. -/
  | visiting (old : Ref) (next : Ref → Script α)
  /-- Run an operation on the new generation. -/
  | editing (edit : Edit) (next : edit.Answer → Script α)
  /-- Look at the new generation. -/
  | inspecting (next : Draft → Script α)
  /-- Leave a reference in the journal. -/
  | remarking (ref : Ref) (next : Script α)
  /-- Declare that attributes are dropped on purpose. -/
  | declaringLoss (next : Script α)
  /-- Give up. -/
  | failing (fault : Fault)

namespace Script

/-- The script that goes on with `f` where `s` is done. -/
def bind {α β : Type} (s : Script α) (f : α → Script β) : Script β :=
  match s with
  | done result => f result
  | visiting old next => visiting old fun r => (next r).bind f
  | editing edit next => editing edit fun a => (next a).bind f
  | inspecting next => inspecting fun b => (next b).bind f
  | remarking ref next => remarking ref (next.bind f)
  | declaringLoss next => declaringLoss (next.bind f)
  | failing fault => failing fault

instance : Monad Script where
  pure := done
  bind := bind

/-- The counterpart of an old node. -/
def visit (old : Ref) : Script Ref := visiting old done

/-- The answer of an operation on the new generation. -/
def perform (edit : Edit) : Script edit.Answer := editing edit done

/-- A new slot. -/
def reserve : Script Ref := perform .reserve

/-- The node of the new generation with the given attributes, found or made. -/
def intern (node : Node) (attributes : Attributes) (forwarding : Option Ref) : Script Ref :=
  perform (.intern node attributes forwarding)

/-- The new generation as it stands. -/
def inspect : Script Draft := inspecting done

/-- Leave a reference in the journal. -/
def remark (ref : Ref) : Script Unit := remarking ref (done ())

/-- Declare that attributes are dropped on purpose. -/
def declareLoss : Script Unit := declaringLoss (done ())

/-- A value, or the fault that stands for it. -/
def ofExcept {α : Type} : Except Fault α → Script α
  | .ok a => done a
  | .error fault => failing fault

end Script

/-- A group of old nodes that are replaced by one new node. -/
structure Group where
  /-- The old nodes. -/
  members : List Ref
  /-- The script that builds the replacement. It is given the reference that stands for the
  replacement until it is there, and returns the replacement. -/
  script : Ref → Script Ref

end SchemaGraph
