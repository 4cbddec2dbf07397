/-!
# Maps in insertion order

A finite map that remembers the order in which its keys came in
(`SchemaGraph.OrderedMap`): a list of entries with distinct keys. A key that is written
again keeps its place and gets the new value. Everything the library lists by name – roots,
attributes, fields – is listed in this order.

Main statements: what a look-up sees after a write
(`SchemaGraph.OrderedMap.find?_insert`) and where a write puts its key
(`SchemaGraph.OrderedMap.keys_insert`).
-/

namespace SchemaGraph

/-- The value that a list of entries gives for a key: the first entry of the key counts. -/
def lookupEntry {α β : Type} [DecidableEq α] (key : α) : List (α × β) → Option β
  | [] => none
  | (k, v) :: rest => if k = key then some v else lookupEntry key rest

/-- The entries with `value` under `key`, in the key's place if it has one and at the end
otherwise. -/
def insertEntry {α β : Type} [DecidableEq α] (key : α) (value : β) : List (α × β) → List (α × β)
  | [] => [(key, value)]
  | (k, v) :: rest => if k = key then (key, value) :: rest else (k, v) :: insertEntry key value rest

section Entries

variable {α β : Type} [DecidableEq α]

theorem lookupEntry_insertEntry {key k : α} {value : β} {entries : List (α × β)} :
    lookupEntry k (insertEntry key value entries) =
      if key = k then some value else lookupEntry k entries := by
  induction entries with
  | nil => simp [insertEntry, lookupEntry]
  | cons e rest ih => grind [insertEntry, lookupEntry]

theorem map_fst_insertEntry {key : α} {value : β} {entries : List (α × β)} :
    (insertEntry key value entries).map Prod.fst =
      if key ∈ entries.map Prod.fst then entries.map Prod.fst
      else entries.map Prod.fst ++ [key] := by
  induction entries with
  | nil => simp [insertEntry]
  | cons e rest ih => grind [insertEntry]

theorem lookupEntry_eq_none_iff {key : α} {entries : List (α × β)} :
    lookupEntry key entries = none ↔ key ∉ entries.map Prod.fst := by
  induction entries with
  | nil => simp [lookupEntry]
  | cons e rest ih => grind [lookupEntry]

end Entries

/-- A finite map whose keys are listed in the order of their first insertion. -/
structure OrderedMap (α β : Type) where
  /-- The entries, oldest key first. -/
  entries : List (α × β)
  nodup : (entries.map Prod.fst).Nodup

namespace OrderedMap

variable {α β : Type}

/-- The map without entries. -/
def empty : OrderedMap α β where
  entries := []
  nodup := by simp

instance : EmptyCollection (OrderedMap α β) := ⟨empty⟩

instance : Inhabited (OrderedMap α β) := ⟨empty⟩

/-- The keys, in insertion order. -/
def keys (m : OrderedMap α β) : List α := m.entries.map Prod.fst

/-- The values, in the order of their keys. -/
def values (m : OrderedMap α β) : List β := m.entries.map Prod.snd

/-- Number of keys. -/
def size (m : OrderedMap α β) : Nat := m.entries.length

/-- Whether there are no entries. -/
def isEmpty (m : OrderedMap α β) : Bool := m.entries.isEmpty

section Operations

variable [DecidableEq α]

/-- The value under `key`. -/
def find? (m : OrderedMap α β) (key : α) : Option β := lookupEntry key m.entries

/-- Whether `key` has a value. -/
def contains (m : OrderedMap α β) (key : α) : Bool := (m.find? key).isSome

/-- The map with `value` under `key`. -/
def insert (m : OrderedMap α β) (key : α) (value : β) : OrderedMap α β where
  entries := insertEntry key value m.entries
  nodup := by
    have h := m.nodup
    rw [map_fst_insertEntry]
    grind

/-- The map without `key`; the other keys keep their order. -/
def erase (m : OrderedMap α β) (key : α) : OrderedMap α β where
  entries := m.entries.filter (·.1 ≠ key)
  nodup := m.nodup.sublist (List.filter_sublist.map Prod.fst)

/-- The map of a list of entries: a repeated key has its first place and its last value. -/
def ofList (entries : List (α × β)) : OrderedMap α β :=
  entries.foldl (fun m e => m.insert e.1 e.2) empty

/-- A look-up after a write sees the write at its key and the old map elsewhere. -/
theorem find?_insert {m : OrderedMap α β} {key k : α} {value : β} :
    (m.insert key value).find? k = if key = k then some value else m.find? k :=
  lookupEntry_insertEntry

/-- A write adds its key at the end, unless the map has it. -/
theorem keys_insert {m : OrderedMap α β} {key : α} {value : β} :
    (m.insert key value).keys = if key ∈ m.keys then m.keys else m.keys ++ [key] :=
  map_fst_insertEntry

theorem find?_eq_none_iff {m : OrderedMap α β} {key : α} : m.find? key = none ↔ key ∉ m.keys :=
  lookupEntry_eq_none_iff

@[simp]
theorem find?_empty {key : α} : (empty : OrderedMap α β).find? key = none := rfl

end Operations

end OrderedMap

end SchemaGraph
