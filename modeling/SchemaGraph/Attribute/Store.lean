import SchemaGraph.Attribute.Set
import SchemaGraph.OrderedMap

/-!
# Attribute stores

The attributes of the nodes and roots of one generation (`SchemaGraph.AttributeStore`). A
node is given by its reference, which has to be one of the store's generation, and its
attributes stand in the slot at its index. Slots come into being when they are first written
to, together with all before them, and never go away again. A node or root for which there
is nothing has no attributes, and a write merges into what is there.

`SchemaGraph.AttributeColumn` is a store seen through one attribute kind.

Main statements: a slot that was made room for reads like before
(`SchemaGraph.AttributeStore.join_getElem?_withRoom`), and what a slot has after a write
(`SchemaGraph.AttributeStore.slot?_put`).
-/

namespace SchemaGraph

/-- The attributes of one generation. -/
structure AttributeStore where
  /-- The serial number of the generation. -/
  serial : Nat
  /-- The attributes of nodes, by index. An empty slot stands for none. -/
  slots : Array (Option Attributes)
  /-- The attributes of roots, by name, in the order of the first write. -/
  roots : OrderedMap String Attributes

/-- What is found with more attributes merged into it. -/
def Attributes.mergeFound (found : Option Attributes) (attributes : Attributes) :
    Except Fault Attributes :=
  match found with
  | some existing => existing.combine attributes
  | none => .ok attributes

theorem Attributes.mergeFound_eq {found : Option Attributes} {attributes : Attributes} :
    mergeFound found attributes = (found.getD ∅).combine attributes := by
  cases found <;> rfl

namespace AttributeStore

/-- The store of a generation in which nothing has attributes. -/
def empty (serial : Nat) : AttributeStore := ⟨serial, #[], ∅⟩

/-- What is in the slot at an index, if there is such a slot. -/
def slot? (s : AttributeStore) (index : Nat) : Option Attributes := s.slots[index]?.join

/-- The attributes of the node at an index. -/
def atIndex (s : AttributeStore) (index : Nat) : Attributes := (s.slot? index).getD ∅

/-- The attributes of a node. -/
def ofNode (s : AttributeStore) (r : Ref) : Except Fault Attributes := do
  r.requireSerial s.serial
  return s.atIndex r.index

/-- The attributes of a root. -/
def ofRoot (s : AttributeStore) (root : String) : Attributes := (s.roots.find? root).getD ∅

/-- The roots that were given attributes, in the order of the first write. -/
def rootNames (s : AttributeStore) : List String := s.roots.keys

/-- Slots that reach to an index: if there are too few, empty ones follow. -/
def withRoom (slots : Array (Option Attributes)) (index : Nat) : Array (Option Attributes) :=
  slots ++ Array.replicate (index + 1 - slots.size) none

/-- The store with a slot filled, for which room is made. -/
def put (s : AttributeStore) (index : Nat) (attributes : Attributes) : AttributeStore :=
  { s with slots := (withRoom s.slots index).setIfInBounds index (some attributes) }

section Slots

variable {s : AttributeStore} {slots : Array (Option Attributes)} {index k : Nat}
  {attributes : Attributes}

theorem size_withRoom : (withRoom slots index).size = max slots.size (index + 1) := by
  rw [withRoom, Array.size_append, Array.size_replicate]
  omega

/-- **Room makes no difference to what is read.** -/
theorem join_getElem?_withRoom : (withRoom slots index)[k]?.join = slots[k]?.join := by
  rw [withRoom, Array.getElem?_append]
  split
  · rfl
  · next hk =>
    rw [Array.getElem?_eq_none (Nat.le_of_not_lt hk), Array.getElem?_replicate]
    split <;> rfl

/-- **A write fills one slot** and leaves the others as they are. -/
theorem slot?_put : (s.put index attributes).slot? k =
    if index = k then some attributes else s.slot? k := by
  have hroom : index < (withRoom s.slots index).size := by
    rw [size_withRoom]
    omega
  rw [slot?, put]
  by_cases hk : index = k
  · subst hk
    rw [if_pos rfl, Array.getElem?_setIfInBounds_self_of_lt hroom, Option.join_some]
  · rw [if_neg hk, Array.getElem?_setIfInBounds_ne hk, join_getElem?_withRoom, slot?]

theorem size_slots_put : (s.put index attributes).slots.size = max s.slots.size (index + 1) := by
  rw [put, Array.size_setIfInBounds, size_withRoom]

theorem atIndex_put : (s.put index attributes).atIndex k =
    if index = k then attributes else s.atIndex k := by
  rw [atIndex, slot?_put]
  split <;> rfl

end Slots

/-- The store with more attributes on a node. -/
def add (s : AttributeStore) (r : Ref) (attributes : Attributes) :
    Except Fault AttributeStore := do
  r.requireSerial s.serial
  if attributes.isEmpty then return s
  return s.put r.index (← Attributes.mergeFound (s.slot? r.index) attributes)

/-- The store with more attributes on a root. -/
def addRoot (s : AttributeStore) (root : String) (attributes : Attributes) :
    Except Fault AttributeStore := do
  if attributes.isEmpty then return s
  return { s with
    roots := s.roots.insert root (← Attributes.mergeFound (s.roots.find? root) attributes) }

theorem addRoot_eq {s : AttributeStore} {root : String} {attributes : Attributes} :
    s.addRoot root attributes = if attributes.isEmpty then .ok s else
      (s.ofRoot root).combine attributes >>= fun merged =>
        .ok { s with roots := s.roots.insert root merged } := by
  rw [addRoot, Attributes.mergeFound_eq]
  rfl

section OneKind

variable {t : ValueType}

/-- The store with a value on a node. -/
def set (s : AttributeStore) (kind : AttributeKind t) (r : Ref) (value : t.Carrier) :
    Except Fault AttributeStore :=
  s.add r (.singleton kind value)

/-- The store with a value on a root. -/
def setRoot (s : AttributeStore) (kind : AttributeKind t) (root : String) (value : t.Carrier) :
    Except Fault AttributeStore :=
  s.addRoot root (.singleton kind value)

/-- The value of a kind on a node. -/
def find? (s : AttributeStore) (kind : AttributeKind t) (r : Ref) :
    Except Fault (Option t.Carrier) := do
  r.requireSerial s.serial
  match s.slot? r.index with
  | some attributes => attributes.find? kind
  | none => return none

/-- Where there are no attributes there is no value. -/
theorem find?_eq_ofNode {s : AttributeStore} {kind : AttributeKind t} {r : Ref} :
    s.find? kind r = s.ofNode r >>= (·.find? kind) := by
  rw [find?, ofNode, atIndex]
  cases r.requireSerial s.serial with
  | error f => rfl
  | ok => cases s.slot? r.index <;> rfl

/-- The value of a kind that a node is known to have. -/
def get (s : AttributeStore) (kind : AttributeKind t) (r : Ref) : Except Fault t.Carrier := do
  match ← s.find? kind r with
  | some value => return value
  | none => throw (.attributeMissing kind.name r)

/-- The value of a kind on a root. -/
def findRoot? (s : AttributeStore) (kind : AttributeKind t) (root : String) :
    Except Fault (Option t.Carrier) :=
  match s.roots.find? root with
  | some attributes => attributes.find? kind
  | none => .ok none

theorem findRoot?_eq_ofRoot {s : AttributeStore} {kind : AttributeKind t} {root : String} :
    s.findRoot? kind root = (s.ofRoot root).find? kind := by
  rw [findRoot?, ofRoot]
  cases s.roots.find? root <;> rfl

/-- The value of a kind that a root is known to have. -/
def getRoot (s : AttributeStore) (kind : AttributeKind t) (root : String) :
    Except Fault t.Carrier := do
  match ← s.findRoot? kind root with
  | some value => return value
  | none => throw (.rootAttributeMissing kind.name root)

end OneKind

end AttributeStore

/-- A store seen through one attribute kind. -/
structure AttributeColumn (t : ValueType) where
  store : AttributeStore
  kind : AttributeKind t

namespace AttributeColumn

variable {t : ValueType}

/-- The value on a node. -/
def find? (c : AttributeColumn t) (r : Ref) : Except Fault (Option t.Carrier) :=
  c.store.find? c.kind r

/-- The value on a node that is known to have one. -/
def get (c : AttributeColumn t) (r : Ref) : Except Fault t.Carrier := c.store.get c.kind r

/-- The value on a root. -/
def findRoot? (c : AttributeColumn t) (root : String) : Except Fault (Option t.Carrier) :=
  c.store.findRoot? c.kind root

/-- The value on a root that is known to have one. -/
def getRoot (c : AttributeColumn t) (root : String) : Except Fault t.Carrier :=
  c.store.getRoot c.kind root

/-- The column after a write to a node. -/
def set (c : AttributeColumn t) (r : Ref) (value : t.Carrier) :
    Except Fault (AttributeColumn t) := do
  return { c with store := ← c.store.set c.kind r value }

/-- The column after a write to a root. -/
def setRoot (c : AttributeColumn t) (root : String) (value : t.Carrier) :
    Except Fault (AttributeColumn t) := do
  return { c with store := ← c.store.setRoot c.kind root value }

end AttributeColumn

end SchemaGraph
