import Mathlib.Data.List.Induction
import SchemaGraph.Proofs.MergingByName

/-!
# Stores as maps

A store of attributes is written to in many ways – a set or one value, at a node or at a root,
directly or through the column of a kind – and all of them in any order. It keeps the attributes of
nodes in an array that grows as it is written to, and those of roots in a list of entries. But it is no
more than a pair of maps, one from nodes and one from root names (`SchemaGraph.AttributeMaps`), in which
every place has attributes from the start.

Every way to write merges something into what one **holder** has (`SchemaGraph.StoreWrite.run_eq`). What
it does to the store is what it does to the maps, a fault included, if the holder is of the store's
generation (`SchemaGraph.AttributeStore.maps_write`), and so are any number of writes
(`SchemaGraph.AttributeStore.maps_foldlM_run`). So what a store has in one place is the merge of what
was written there, from the first to the last (`SchemaGraph.store_reflects_writes`), because this is so
for the maps. Nothing but types can come in the way of a merge, so if every name has one type there is
always a result.

What the maps do not show is which slots there are, and the order of the roots
(`SchemaGraph.AttributeStore.Shaped`): there are slots up to the last one that was written to.
-/

namespace SchemaGraph

/-! ### Folds of merges -/

/-- The kind has the type that its name stands for. -/
def OfType (type : String → ValueType) (k : AnyKind) : Prop := k.1 = type k.2.name

namespace Attributes

variable {s t u : Attributes} {sets : List Attributes} {name : String}
  {type : String → ValueType} {P : AnyKind → Prop}

theorem contains_eq_false_iff : s.contains name = false ↔ s.under name = none := by
  rw [contains, under, List.any_eq_false, List.find?_eq_none]

theorem typesAgree_of_among (hs : s.Among (OfType type)) (ht : t.Among (OfType type)) :
    s.TypesAgree t := by
  have htype : ∀ {u : Attributes} {name τ}, u.Among (OfType type) → u.typeUnder name = some τ →
      τ = type name := by
    intro u name τ hu hτ
    obtain ⟨a, ha, rfl⟩ := Option.map_eq_some_iff.1 hτ
    obtain ⟨hmem, rfl⟩ := under_eq_some_iff.1 ha
    exact hu a hmem
  exact fun name τ τ' hτ hτ' => (htype ht hτ').trans (htype hs hτ).symm

/-- A value can be read as one of the type that its name stands for. -/
theorem exists_find?_of_among {τ : ValueType} {kind : AttributeKind τ} (hs : s.Among (OfType type))
    (hkind : type kind.name = τ) :
    ∃ value, s.find? kind = .ok value ∧ (value = none ↔ s.under kind.name = none) := by
  rw [find?_eq_under]
  cases hunder : s.under kind.name with
  | none => exact ⟨none, rfl, by simp⟩
  | some a =>
    obtain ⟨hmem, hname⟩ := under_eq_some_iff.1 hunder
    have htype : a.type = τ := by
      calc a.type = type a.name := hs a hmem
        _ = τ := by rw [hname, hkind]
    refine ⟨some (htype ▸ a.value), ?_, by simp⟩
    change (a.read kind).map some = _
    rw [Attribute.read, dif_pos htype]
    rfl

/-- Empty sets make no difference. -/
theorem combineAll_filter_nonempty : combineAll (sets.filter (!·.isEmpty)) = combineAll sets := by
  rw [combineAll, combineAll]
  generalize empty = s
  induction sets generalizing s with
  | nil => rfl
  | cons t rest ih =>
    by_cases ht : t.isEmpty = true
    · rw [List.filter_cons_of_neg (by simp [ht]), ih, eq_empty_of_isEmpty ht, List.foldlM_cons,
        combine_empty_right]
      rfl
    · rw [List.filter_cons_of_pos (by simpa using ht), List.foldlM_cons, List.foldlM_cons]
      exact congrArg _ (funext ih)

theorem among_of_combineAll (h : combineAll sets = .ok u) (hsets : ∀ s ∈ sets, Among P s) :
    u.Among P := by
  have hends : Ends (combineAll sets) (fun _ => True) fun u => u.Among P :=
    Ends.foldlM (fun s hs t ht => (combine_ends hs (hsets t ht)).mono_bad fun _ _ => trivial)
      fun _ h => by cases h
  exact hends.of_eq_ok h

/-- There is nothing under a name if there was nothing in any of the sets. -/
theorem under_eq_none_iff_of_combineAll (h : combineAll sets = .ok u) :
    u.under name = none ↔ ∀ s ∈ sets, s.under name = none := by
  induction sets using List.reverseRecOn generalizing u with
  | nil =>
    obtain rfl := Except.ok.inj h
    exact iff_of_true under_empty nofun
  | append_singleton sets t ih =>
    rw [combineAll_concat] at h
    obtain ⟨s, hs, h⟩ := exists_of_bind_eq_ok h
    have htype : u.typeUnder name = _ := typeUnder_combine h
    have hnone : u.under name = none ↔ s.under name = none ∧ t.under name = none := by
      have hiff := congrArg (· = none) htype
      simpa only [typeUnder, Option.or_eq_none_iff, Option.map_eq_none_iff, eq_iff_iff] using hiff
    rw [hnone, ih hs]
    simp only [List.forall_mem_append, List.forall_mem_singleton]

end Attributes

/-! ### Holders -/

/-- What can have attributes. -/
inductive Holder
  | node (r : Ref)
  | root (name : String)
deriving DecidableEq

namespace Holder

/-- A node has to be one of generation `serial`; a root can be any. -/
def Within (serial : Nat) : Holder → Prop
  | node r => r.serial = serial
  | root _ => True

/-- What is wrong if a kind that is known to be here is not. -/
def missing (kind : String) : Holder → Fault
  | node r => .attributeMissing kind r
  | root name => .rootAttributeMissing kind name

/-- The slot that a node has. -/
def slot? : Holder → Option Nat
  | node r => some r.index
  | root _ => none

/-- The name that a root has. -/
def root? : Holder → Option String
  | node _ => none
  | root name => some name

end Holder

variable {h k : Holder} {merged : Attributes} {serial : Nat}

/-! ### Total maps -/

/-- What every node and every root has. -/
structure AttributeMaps where
  /-- The attributes of nodes, by index. -/
  nodes : Nat → Attributes
  /-- The attributes of roots, by name. -/
  roots : String → Attributes

namespace AttributeMaps

/-- Nothing has attributes. -/
def empty : AttributeMaps := ⟨fun _ => ∅, fun _ => ∅⟩

/-- What is in a place. -/
def found (m : AttributeMaps) : Holder → Attributes
  | .node r => m.nodes r.index
  | .root name => m.roots name

/-- The maps with other attributes in one place. -/
def update (m : AttributeMaps) : Holder → Attributes → AttributeMaps
  | .node r, attributes => { m with nodes := Function.update m.nodes r.index attributes }
  | .root name, attributes => { m with roots := Function.update m.roots name attributes }

/-- The maps with more attributes in one place. -/
def write (m : AttributeMaps) (h : Holder) (attributes : Attributes) : Except Fault AttributeMaps :=
  ((m.found h).combine attributes).map (m.update h)

variable {m : AttributeMaps}

theorem update_found : m.update h (m.found h) = m := by
  cases h with
  | node r => exact congrArg (AttributeMaps.mk · m.roots) (Function.update_eq_self r.index m.nodes)
  | root name => exact congrArg (AttributeMaps.mk m.nodes) (Function.update_eq_self name m.roots)

/-- Within a generation, places are told apart by their holders. -/
theorem found_update (hh : h.Within serial) (hk : k.Within serial) :
    (m.update h merged).found k = if h = k then merged else m.found k := by
  cases h with
  | node r =>
    cases k with
    | node s =>
      have hindex : Holder.node r = .node s ↔ s.index = r.index := by
        rw [Holder.node.injEq]
        exact ⟨fun heq => heq ▸ rfl, fun heq => Ref.ext (hh.trans hk.symm) heq.symm⟩
      simp only [update, found, Function.update_apply, hindex]
    | root name => simp [update, found]
  | root name =>
    cases k with
    | node s => simp [update, found]
    | root name' => simp [update, found, Function.update_apply, eq_comm]

end AttributeMaps

/-! ### Writes -/

/-- A write to a store: of a set or of one value, directly or through the column of a kind. -/
inductive StoreWrite
  | add (r : Ref) (attributes : Attributes)
  | addRoot (root : String) (attributes : Attributes)
  | set {t : ValueType} (kind : AttributeKind t) (r : Ref) (value : t.Carrier)
  | setRoot {t : ValueType} (kind : AttributeKind t) (root : String) (value : t.Carrier)
  | setColumn {t : ValueType} (kind : AttributeKind t) (r : Ref) (value : t.Carrier)
  | setRootColumn {t : ValueType} (kind : AttributeKind t) (root : String) (value : t.Carrier)

namespace StoreWrite

/-- The store after the write. -/
def run (s : AttributeStore) : StoreWrite → Except Fault AttributeStore
  | add r attributes => s.add r attributes
  | addRoot root attributes => s.addRoot root attributes
  | set kind r value => s.set kind r value
  | setRoot kind root value => s.setRoot kind root value
  | setColumn kind r value => return (← AttributeColumn.set ⟨s, kind⟩ r value).store
  | setRootColumn kind root value => return (← AttributeColumn.setRoot ⟨s, kind⟩ root value).store

/-- Where it is written. -/
def holder : StoreWrite → Holder
  | add r _ | set _ r _ | setColumn _ r _ => .node r
  | addRoot root _ | setRoot _ root _ | setRootColumn _ root _ => .root root

/-- What is written. -/
def attributes : StoreWrite → Attributes
  | add _ attributes | addRoot _ attributes => attributes
  | set kind _ value | setColumn kind _ value => .singleton kind value
  | setRoot kind _ value | setRootColumn kind _ value => .singleton kind value

/-- What the write does to maps. -/
def runMaps (m : AttributeMaps) (w : StoreWrite) : Except Fault AttributeMaps :=
  m.write w.holder w.attributes

/-- The holder that is given something. -/
def given? (w : StoreWrite) : Option Holder := if w.attributes.isEmpty then none else some w.holder

end StoreWrite

/-- What the writes to one place wrote there. -/
def writtenTo (h : Holder) (writes : List StoreWrite) : List Attributes :=
  (writes.filter (·.holder = h)).map StoreWrite.attributes

variable {writes : List StoreWrite} {w : StoreWrite} {type : String → ValueType}

theorem writtenTo_concat : writtenTo h (writes ++ [w]) =
    if w.holder = h then writtenTo h writes ++ [w.attributes] else writtenTo h writes := by
  rw [writtenTo, writtenTo, List.filter_append, List.map_append]
  split <;> simp_all

theorem OfType.among_writtenTo (htyped : ∀ w ∈ writes, w.attributes.Among (OfType type)) :
    ∀ a ∈ writtenTo h writes, a.Among (OfType type) := by
  intro a ha
  obtain ⟨w, hw, rfl⟩ := List.mem_map.1 ha
  exact htyped w (List.mem_of_mem_filter hw)

namespace AttributeMaps

/-- The maps say what was written, place by place. -/
def Reflects (serial : Nat) (writes : List StoreWrite) (m : AttributeMaps) : Prop :=
  ∀ h : Holder, h.Within serial → Attributes.combineAll (writtenTo h writes) = .ok (m.found h)

variable {m m' : AttributeMaps}

theorem reflects_empty : empty.Reflects serial [] := by
  rintro (r | name) - <;> rfl

/-- One more write. -/
theorem Reflects.concat (hm : m.Reflects serial writes) (hwithin : w.holder.Within serial)
    (h : w.runMaps m = .ok m') : m'.Reflects serial (writes ++ [w]) := by
  intro k hk
  rw [StoreWrite.runMaps, write] at h
  obtain ⟨merged, hmerged, rfl⟩ := exists_of_map_eq_ok h
  rw [writtenTo_concat, found_update hwithin hk]
  split
  · next heq =>
    subst heq
    rw [Attributes.combineAll_concat, hm _ hwithin]
    exact hmerged
  · exact hm k hk

/-- Writes of one type to each name all go through. -/
theorem exists_reflects (hwithin : ∀ w ∈ writes, w.holder.Within serial)
    (htyped : ∀ w ∈ writes, w.attributes.Among (OfType type)) :
    ∃ m, writes.foldlM StoreWrite.runMaps empty = .ok m ∧ m.Reflects serial writes := by
  induction writes using List.reverseRecOn with
  | nil => exact ⟨_, rfl, reflects_empty⟩
  | append_singleton writes w ih =>
    rw [List.forall_mem_append, List.forall_mem_singleton] at hwithin htyped
    obtain ⟨m, hrun, hm⟩ := ih hwithin.1 htyped.1
    have hamong : (m.found w.holder).Among (OfType type) :=
      Attributes.among_of_combineAll (hm _ hwithin.2) (OfType.among_writtenTo htyped.1)
    obtain ⟨merged, hmerged, -⟩ := Attributes.combine_ends_joined.exists_ok fun _ hnot =>
      hnot (Attributes.typesAgree_of_among hamong htyped.2)
    have hwrite : w.runMaps m = .ok (m.update w.holder merged) := by
      rw [StoreWrite.runMaps, write, hmerged]
      rfl
    refine ⟨_, ?_, hm.concat hwithin.2 hwrite⟩
    rw [List.foldlM_append, hrun]
    change (w.runMaps m >>= pure) = _
    rw [bind_pure, hwrite]

end AttributeMaps

/-! ### Stores -/

namespace AttributeStore

/-- What the store has in a place. -/
def attributesAt (s : AttributeStore) : Holder → Except Fault Attributes
  | .node r => s.ofNode r
  | .root name => .ok (s.ofRoot name)

/-- The value of a kind in a place. -/
def valueAt? {t : ValueType} (s : AttributeStore) (kind : AttributeKind t) :
    Holder → Except Fault (Option t.Carrier)
  | .node r => s.find? kind r
  | .root name => s.findRoot? kind name

/-- The value of a kind in a place that is known to have one. -/
def valueAt {t : ValueType} (s : AttributeStore) (kind : AttributeKind t) :
    Holder → Except Fault t.Carrier
  | .node r => s.get kind r
  | .root name => s.getRoot kind name

/-- Merge attributes into what is in a place. -/
def write (s : AttributeStore) : Holder → Attributes → Except Fault AttributeStore
  | .node r, attributes => s.add r attributes
  | .root name, attributes => s.addRoot name attributes

/-- The store with other attributes in a place. -/
def fill (s : AttributeStore) : Holder → Attributes → AttributeStore
  | .node r, attributes => s.put r.index attributes
  | .root name, attributes => { s with roots := s.roots.insert name attributes }

/-- The maps that the store stands for. -/
def maps (s : AttributeStore) : AttributeMaps := ⟨s.atIndex, s.ofRoot⟩

variable {s s' : AttributeStore} {attributes : Attributes} {t : ValueType} {kind : AttributeKind t}

theorem attributesAt_eq_ok (hwithin : h.Within s.serial) : s.attributesAt h = .ok (s.maps.found h) := by
  cases h with
  | node r => exact ofNode_eq_ok hwithin
  | root name => rfl

theorem valueAt?_eq : s.valueAt? kind h = s.attributesAt h >>= (·.find? kind) := by
  cases h with
  | node r => exact find?_eq_ofNode
  | root name => exact findRoot?_eq_ofRoot

theorem valueAt_eq : s.valueAt kind h = s.valueAt? kind h >>= fun found =>
    match found with
    | some value => .ok value
    | none => .error (h.missing kind.name) := by
  cases h <;> rfl

theorem maps_fill : (s.fill h merged).maps = s.maps.update h merged := by
  cases h with
  | node r =>
    refine congrArg (AttributeMaps.mk · s.ofRoot) (funext fun index => ?_)
    rw [fill, atIndex_put, maps, Function.update_apply]
    exact if_congr eq_comm rfl rfl
  | root name =>
    refine congrArg (AttributeMaps.mk s.atIndex) (funext fun name' => ?_)
    rw [fill, ofRoot, OrderedMap.find?_insert, maps, Function.update_apply]
    by_cases hname : name = name'
    · rw [if_pos hname, if_pos hname.symm]
      rfl
    · rw [if_neg hname, if_neg (Ne.symm hname)]
      rfl

theorem serial_fill : (s.fill h merged).serial = s.serial := by
  cases h <;> rfl

/-- **All that a write can do** is to fill a place with more than there was. -/
theorem write_eq (hwithin : h.Within s.serial) : s.write h attributes =
    if attributes.isEmpty then .ok s else
      (s.maps.found h).combine attributes >>= fun merged => .ok (s.fill h merged) := by
  cases h with
  | node r => exact add_eq hwithin
  | root name => exact addRoot_eq

/-- Nothing is written to nodes of other generations. -/
theorem within_of_write (hwrite : s.write h attributes = .ok s') : h.Within s.serial := by
  cases h with
  | node r => exact serial_eq_of_add hwrite
  | root name => trivial

theorem eq_or_of_write (hwrite : s.write h attributes = .ok s') :
    attributes.isEmpty = true ∧ s' = s ∨
      attributes.isEmpty = false ∧ ∃ merged, s' = s.fill h merged := by
  rw [write_eq (within_of_write hwrite)] at hwrite
  split at hwrite
  · next hempty => exact .inl ⟨hempty, (Except.ok.inj hwrite).symm⟩
  · next hnonempty =>
    obtain ⟨merged, -, hwrite⟩ := exists_of_bind_eq_ok hwrite
    exact .inr ⟨by simpa using hnonempty, merged, (Except.ok.inj hwrite).symm⟩

theorem serial_write (hwrite : s.write h attributes = .ok s') : s'.serial = s.serial := by
  obtain ⟨-, rfl⟩ | ⟨-, merged, rfl⟩ := eq_or_of_write hwrite
  · rfl
  · exact serial_fill

/-- **A write does to a store what it does to the maps**, and meets the same fault. -/
theorem maps_write (hwithin : h.Within s.serial) :
    (s.write h attributes).map maps = s.maps.write h attributes := by
  rw [write_eq hwithin, AttributeMaps.write]
  split
  · next hempty =>
    rw [Attributes.eq_empty_of_isEmpty hempty, Attributes.combine_empty_right]
    exact congrArg Except.ok AttributeMaps.update_found.symm
  · cases (s.maps.found h).combine attributes with
    | error f => rfl
    | ok merged => exact congrArg Except.ok maps_fill

end AttributeStore

/-- **Every way to write merges a set into what one place has.** -/
theorem StoreWrite.run_eq {s : AttributeStore} : w.run s = s.write w.holder w.attributes := by
  have hcolumn : ∀ {t : ValueType} {kind : AttributeKind t} {x : Except Fault AttributeStore},
      (do return (← (do return { store := ← x, kind : AttributeColumn t })).store) = x :=
    fun {_ _ x} => by cases x <;> rfl
  cases w with
  | add | addRoot | set | setRoot => rfl
  | setColumn | setRootColumn => exact hcolumn

namespace AttributeStore

variable {s s' : AttributeStore}

/-- **Any writes do to a store what they do to the maps.** -/
theorem maps_foldlM_run (hwithin : ∀ w ∈ writes, w.holder.Within s.serial) :
    (writes.foldlM StoreWrite.run s).map maps = writes.foldlM StoreWrite.runMaps s.maps := by
  induction writes generalizing s with
  | nil => rfl
  | cons w writes ih =>
    obtain ⟨hw, hwrites⟩ := List.forall_mem_cons.1 hwithin
    have hstep : (s.write w.holder w.attributes).map maps = s.maps.write w.holder w.attributes :=
      maps_write hw
    rw [List.foldlM_cons, List.foldlM_cons, StoreWrite.run_eq, StoreWrite.runMaps, ← hstep]
    cases hwrite : s.write w.holder w.attributes with
    | error f => rfl
    | ok s' => exact ih (serial_write hwrite ▸ hwrites)

theorem serial_foldlM_run (hrun : writes.foldlM StoreWrite.run s = .ok s') : s'.serial = s.serial := by
  have hends : Ends (writes.foldlM StoreWrite.run s) (fun _ => True) fun s' => s'.serial = s.serial :=
    Ends.foldlM (fun mid hmid w _ => Ends.self.mono fun s' hs' =>
      (serial_write (StoreWrite.run_eq.symm.trans hs')).trans hmid) rfl
  exact hends.of_eq_ok hrun

/-- What the maps do not show, if these holders were given something, one after the other. The slots of
nodes among them are filled, and there are slots up to the last of these. Roots are listed in the order
in which they were first given something. -/
structure Shaped (s : AttributeStore) (given : List Holder) : Prop where
  filled : ∀ index, s.slot? index ≠ none ↔ index ∈ given.filterMap Holder.slot?
  room : ∀ index, index < s.slots.size ↔ ∃ last ∈ given.filterMap Holder.slot?, index ≤ last
  rootNames : s.rootNames = (given.filterMap Holder.root?).eraseDups

variable {given : List Holder}

theorem shaped_empty : (empty serial).Shaped [] where
  filled index := by simp [empty, slot?]
  room index := by simp [empty]
  rootNames := rfl

/-- One more holder. -/
theorem Shaped.fill (hs : s.Shaped given) : (s.fill h merged).Shaped (given ++ [h]) := by
  cases h with
  | node r =>
    refine ⟨fun index => ?_, fun index => ?_, ?_⟩
    · rw [AttributeStore.fill, slot?_put, List.filterMap_append, List.mem_append, ← hs.filled]
      by_cases hindex : r.index = index
      · simp [hindex, Holder.slot?]
      · simp [hindex, Ne.symm hindex, Holder.slot?]
    · have hroom : index < max s.slots.size (r.index + 1) ↔ index < s.slots.size ∨ index ≤ r.index := by
        omega
      rw [AttributeStore.fill, size_slots_put, hroom, hs.room]
      simp [Holder.slot?, or_and_right, exists_or]
    · rw [List.filterMap_append]
      exact hs.rootNames.trans (congrArg List.eraseDups (List.append_nil _).symm)
  | root name =>
    refine ⟨fun index => ?_, fun index => ?_, ?_⟩
    · rw [List.filterMap_append]
      exact (hs.filled index).trans (by simp [Holder.slot?])
    · rw [List.filterMap_append]
      exact (hs.room index).trans (by simp [Holder.slot?])
    · have hkeys : s.roots.keys = (given.filterMap Holder.root?).eraseDups := hs.rootNames
      rw [AttributeStore.fill, AttributeStore.rootNames, OrderedMap.keys_insert, hkeys,
        List.filterMap_append]
      simp only [List.mem_eraseDups]
      exact eraseDups_concat.symm

/-- Any number of writes. -/
theorem Shaped.foldlM_run (hs : s.Shaped given) (hrun : writes.foldlM StoreWrite.run s = .ok s') :
    s'.Shaped (given ++ writes.filterMap StoreWrite.given?) := by
  induction writes generalizing s given with
  | nil =>
    obtain rfl := Except.ok.inj hrun
    simpa using hs
  | cons w writes ih =>
    rw [List.foldlM_cons, StoreWrite.run_eq] at hrun
    obtain ⟨mid, hwrite, hrest⟩ := exists_of_bind_eq_ok hrun
    obtain ⟨hempty, rfl⟩ | ⟨hnonempty, merged, rfl⟩ := eq_or_of_write hwrite
    · have hgiven : w.given? = none := if_pos hempty
      rw [List.filterMap_cons_none hgiven]
      exact ih hs hrest
    · have hgiven : w.given? = some w.holder := if_neg (by simp [hnonempty])
      rw [List.filterMap_cons_some hgiven, List.append_cons]
      exact ih hs.fill hrest

end AttributeStore

/-- **A store is a pair of maps from places to merged writes.** Writes do to it what they do to a pair
of total maps, and meet the same fault, whatever it was before. After any writes that give each name
values of one type, each place has the merge, from first to last, of what was written there, whatever
was written elsewhere in between, and writes of nothing do not count. A kind can be read in a place
exactly if some write there had it, and roots are listed in the order in which they were first given
something. The slots that are filled are those of nodes that were given something, and there are slots
up to the last of them. -/
theorem store_reflects_writes :
    (∀ (s : AttributeStore) (writes : List StoreWrite), (∀ w ∈ writes, w.holder.Within s.serial) →
      (writes.foldlM StoreWrite.run s).map AttributeStore.maps =
        writes.foldlM StoreWrite.runMaps s.maps) ∧
    ∀ (type : String → ValueType) (serial : Nat) (writes : List StoreWrite),
      (∀ w ∈ writes, w.holder.Within serial) →
      (∀ w ∈ writes, w.attributes.Among (OfType type)) →
      ∃ s, writes.foldlM StoreWrite.run (.empty serial) = .ok s ∧
        s.Shaped (writes.filterMap StoreWrite.given?) ∧
        ∀ h : Holder, h.Within serial → ∃ found,
          Attributes.combineAll (writtenTo h writes) = .ok found ∧
          Attributes.combineAll ((writtenTo h writes).filter (!·.isEmpty)) = .ok found ∧
          s.attributesAt h = .ok found ∧
          ∀ {t : ValueType} (kind : AttributeKind t), type kind.name = t → ∃ value,
            found.find? kind = .ok value ∧ s.valueAt? kind h = .ok value ∧
            (value = none ↔ ∀ a ∈ writtenTo h writes, a.contains kind.name = false) ∧
            s.valueAt kind h =
              match value with
              | some v => .ok v
              | none => .error (h.missing kind.name) := by
  refine ⟨fun _ _ => AttributeStore.maps_foldlM_run, fun type serial writes hwithin htyped => ?_⟩
  obtain ⟨m, hmaps, hm⟩ := AttributeMaps.exists_reflects hwithin htyped
  have hrun : (writes.foldlM StoreWrite.run (.empty serial)).map AttributeStore.maps = .ok m :=
    (AttributeStore.maps_foldlM_run hwithin).trans hmaps
  obtain ⟨s, hs, rfl⟩ := exists_of_map_eq_ok hrun
  have hserial : s.serial = serial := AttributeStore.serial_foldlM_run hs
  refine ⟨s, hs, AttributeStore.shaped_empty.foldlM_run hs, fun h hh => ?_⟩
  have hfound := hm h hh
  have hat : s.attributesAt h = .ok (s.maps.found h) :=
    AttributeStore.attributesAt_eq_ok (hserial.symm ▸ hh)
  refine ⟨_, hfound, Attributes.combineAll_filter_nonempty.trans hfound, hat, fun kind hkind => ?_⟩
  have hamong : (s.maps.found h).Among (OfType type) :=
    Attributes.among_of_combineAll hfound (OfType.among_writtenTo htyped)
  obtain ⟨value, hvalue, hnone⟩ := Attributes.exists_find?_of_among hamong hkind
  have hread : s.valueAt? kind h = .ok value := by
    rw [AttributeStore.valueAt?_eq, hat]
    exact hvalue
  refine ⟨value, hvalue, hread, ?_, ?_⟩
  · rw [hnone, Attributes.under_eq_none_iff_of_combineAll hfound]
    simp only [Attributes.contains_eq_false_iff]
  · rw [AttributeStore.valueAt_eq, hread]
    rfl

/-- Names and descriptions in several places, and nothing for one root before it gets a name. -/
def jottings : List StoreWrite :=
  [.set .names ⟨3, 5⟩ (.singleton "first"), .addRoot "late" ∅,
    .setRootColumn .names "early" (.singleton "entry"), .add ⟨3, 0⟩ (.singleton .names (.singleton "other")),
    .setColumn .description ⟨3, 5⟩ (.singleton "a node"), .setRoot .names "late" (.singleton "exit"),
    .add ⟨3, 5⟩ (.singleton .names (.singleton "again"))]

/-- The names and the description of the node come together again, in this order, and the root that
was first given something is the first one listed. There are slots for the node and for those before it,
of which one is filled. -/
theorem store_reflects_jottings : ∃ s, jottings.foldlM StoreWrite.run (.empty 3) = .ok s ∧
    (s.ofNode ⟨3, 5⟩).map Attributes.shown =
      .ok [("names", "again,first"), ("description", "a node")] ∧
    s.find? .names ⟨3, 1⟩ = .ok none ∧ s.rootNames = ["early", "late"] ∧
    (∀ index, index < s.slots.size ↔ index ≤ 5) ∧ ∀ index, s.slot? index ≠ none ↔ index ∈ [5, 0, 5, 5] := by
  obtain ⟨-, hreflects⟩ := store_reflects_writes
  obtain ⟨s, hrun, hshaped, hat⟩ :=
    hreflects (fun name => if name = "names" then .candidates else .labels) 3 jottings
      (by simp [jottings, StoreWrite.holder, Holder.Within])
      (by simp [jottings, StoreWrite.attributes, Attributes.Among, OfType, Attribute.anyKind,
        Attributes.singleton, EmptyCollection.emptyCollection, Attributes.empty, AttributeKind.names,
        AttributeKind.description])
  obtain ⟨found, hfound, -, hnode, -⟩ := hat (.node ⟨3, 5⟩) rfl
  obtain ⟨_, -, -, -, hread⟩ := hat (.node ⟨3, 1⟩) rfl
  obtain ⟨value, -, hread, habsent, -⟩ := hread .names rfl
  have hgiven : (jottings.filterMap StoreWrite.given?).filterMap Holder.slot? = [5, 0, 5, 5] := by
    decide +kernel
  refine ⟨s, hrun, ?_, ?_, hshaped.rootNames.trans (by decide +kernel), fun index => ?_, fun index => ?_⟩
  · rw [← show s.attributesAt (.node ⟨3, 5⟩) = s.ofNode ⟨3, 5⟩ from rfl, hnode, ← hfound]
    decide +kernel
  · rw [← habsent.2 (by decide +kernel)]
    exact hread
  · rw [hshaped.room, hgiven]
    simp
    omega
  · rw [hshaped.filled, hgiven]

end SchemaGraph
