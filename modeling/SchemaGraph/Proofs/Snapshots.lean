import SchemaGraph.Generation.Snapshot
import SchemaGraph.Proofs.CheckedReads
import SchemaGraph.Proofs.Deriving
import SchemaGraph.Proofs.NodeFormat

/-!
# Reading snapshots

A snapshot of a generation is only written, but what it has for nodes is the JSON form of nodes with a
few members more (`SchemaGraph.Generation.ShowsNode`). None of their keys is a key of a node
(`SchemaGraph.Node.payloadKeys`), and reading nodes ignores members that it does not know, so every
entry is read as the node that it was written for. Thus the snapshot tells the nodes; it also tells the
serial number and the index of every root, which is all that there is to a root. Together with what is
known of the format of nodes this is `SchemaGraph.Generation.snapshot_faithful`.
-/

namespace SchemaGraph

namespace Generation

/-- The numbers of all nodes fit references. -/
def FitsRefs (g : Generation) : Prop := g.serial < Ref.limit ∧ g.size ≤ Ref.limit

/-- The members of an entry show the node at an index: there are those of the node, and besides them
the index and maybe a name and attributes. -/
structure ShowsNode (index : Nat) (node : Node) (members : List (String × Json)) : Prop where
  nodup : (members.map Prod.fst).Nodup
  index_mem : ("index", .integer index) ∈ members
  jsonMembers_subset : node.jsonMembers ⊆ members
  others : ∀ m ∈ members, m ∈ node.jsonMembers ∨ m.1 ∈ ["index", "name", "attributes"]

/-- The JSON values are entries for the nodes of the generation, in order. -/
def IsListedBy (g : Generation) (entries : List Json) : Prop :=
  entries.length = g.size ∧ ∀ {index node}, g.node? index = some node →
    ∃ members, entries[index]? = some (.object members) ∧ ShowsNode index node members

/-- The JSON value shows the generation: its serial number, the indices of its roots and its nodes. -/
def IsShownBy (g : Generation) (json : Json) : Prop :=
  ∃ entries,
    json = .object
      [("serial", .integer g.serial),
        ("top_levels", .object (g.roots.entries.map fun e => (e.1, .integer e.2.index))),
        ("types", .array entries)] ∧
    g.IsListedBy entries

variable {g h : Generation} {P : AnyKind → Prop} {index : Nat} {node : Node} {json : Json}
  {entries : List Json}

/-! ### What a snapshot shows -/

/-- Around the members of a node there is place for an index, a name and attributes. -/
theorem showsNode_append {name? attributes? : List (String × Json)}
    (hname : (name?.map Prod.fst).Sublist ["name"])
    (hattributes : (attributes?.map Prod.fst).Sublist ["attributes"]) :
    ShowsNode index node
      (("index", .integer index) :: name? ++ node.jsonMembers ++ attributes?) where
  nodup := by
    obtain ⟨key, hkey, form, hmembers, -⟩ := node.exists_payloadForm
    have hapart : ∀ key ∈ Node.payloadKeys, ["index", "name", "kind", key, "attributes"].Nodup := by
      decide
    refine (hapart key hkey).sublist ?_
    rw [hmembers, List.map_append, List.map_append]
    exact ((hname.cons_cons "index").append (List.Sublist.refl ["kind", key])).append hattributes
  index_mem := by simp
  jsonMembers_subset m hm := by simp [hm]
  others m hm := by
    have hname : m ∈ name? → m.1 = "name" := fun h =>
      List.mem_singleton.1 (hname.subset (List.mem_map_of_mem h))
    have hattributes : m ∈ attributes? → m.1 = "attributes" := fun h =>
      List.mem_singleton.1 (hattributes.subset (List.mem_map_of_mem h))
    simp only [List.cons_append, List.mem_cons, List.mem_append] at hm
    rcases hm with rfl | (h | h) | h
    · exact .inr (by simp)
    · exact .inr (by simp [hname h])
    · exact .inl h
    · exact .inr (by simp [hattributes h])

/-- A node can be shown. -/
theorem snapshotEntry_ends (hg : g.store.Among P) :
    Ends (g.snapshotEntry index node) (fun _ => ¬OneType P) fun entry =>
      ∃ members, entry = .object members ∧ ShowsNode index node members := by
  refine (nameOf_ends hg rfl).bind fun name? _ => ⟨_, rfl, showsNode_append ?_ ?_⟩
  · cases name? <;> simp
  · split <;> simp

/-- **A generation can be shown.** -/
theorem snapshot_ends (hg : g.store.Among P) :
    Ends g.snapshot (fun _ => ¬OneType P) g.IsShownBy := by
  have hentries : Ends (g.nodes.toList.zipIdx.mapM fun e => g.snapshotEntry e.2 e.1)
      (fun _ => ¬OneType P) (List.Forall₂ (fun e entry =>
        ∃ members, entry = .object members ∧ ShowsNode e.2 e.1 members) g.nodes.toList.zipIdx) :=
    Ends.mapM_forall₂ fun _ _ => snapshotEntry_ends hg
  refine hentries.bind fun entries hall => ?_
  have hlength : entries.length = g.size := by
    rw [← hall.length_eq, List.length_zipIdx, Array.length_toList, size]
  refine ⟨entries, rfl, hlength, fun {index node} hn => ?_⟩
  obtain ⟨hlt, hnode⟩ := Array.getElem?_eq_some_iff.1 hn
  have hi : index < g.nodes.toList.zipIdx.length := by simpa using hlt
  have hi' : index < entries.length := hall.length_eq ▸ hi
  have hat : g.nodes.toList.zipIdx[index] = (node, index) := by
    rw [List.getElem_zipIdx, Array.getElem_toList, hnode, Nat.zero_add]
  obtain ⟨members, hentry, hshows⟩ := hall.get hi hi'
  rw [List.get_eq_getElem] at hentry
  rw [List.get_eq_getElem, hat] at hshows
  exact ⟨members, List.getElem?_eq_some_iff.2 ⟨hi', hentry⟩, hshows⟩

/-! ### Nodes of snapshots -/

theorem isShownBy_of_snapshot (h : g.snapshot = .ok json) : g.IsShownBy json :=
  (snapshot_ends (P := fun _ => True) fun _ _ _ => trivial).of_eq_ok h

theorem FitsRefs.of_node? (hg : g.FitsRefs) (hn : g.node? index = some node) : node.Fits := by
  intro c hc
  obtain ⟨hserial, hindex⟩ := owns_of_mem_children hn hc
  exact ⟨hserial ▸ hg.1, Nat.lt_of_lt_of_le hindex hg.2⟩

/-- **Entries are read as the nodes of the generation.** -/
theorem IsListedBy.map_ofJson? (h : g.IsListedBy entries) (hg : g.FitsRefs) :
    entries.map Node.ofJson? = g.nodes.toList.map some := by
  have hlength : entries.length = g.nodes.toList.length := h.1
  refine List.ext_getElem (by simpa using hlength) fun i hi hi' => ?_
  have hlt : i < g.nodes.size := by simpa using hi'
  have hn : g.node? i = some g.nodes[i] := Array.getElem?_eq_getElem hlt
  obtain ⟨members, hentry, hshows⟩ := h.2 hn
  obtain ⟨hi, hentry⟩ := List.getElem?_eq_some_iff.1 hentry
  have hread : Node.ofJson? (.object members) = some g.nodes[i] :=
    Node.ofJson?_object (hg.of_node? hn) hshows.nodup hshows.jsonMembers_subset
  rw [List.getElem_map, List.getElem_map, hentry, hread, Array.getElem_toList]

/-- The names and indices of roots tell the roots. -/
theorem roots_eq_of_indices (hserial : g.serial = h.serial)
    (hroots : g.roots.entries.map (fun e => (e.1, Json.integer e.2.index)) =
      h.roots.entries.map fun e => (e.1, Json.integer e.2.index)) : g.roots = h.roots := by
  have hlength : g.roots.entries.length = h.roots.entries.length := by
    simpa using congrArg List.length hroots
  have hentries : g.roots.entries = h.roots.entries := by
    refine List.ext_getElem hlength fun i hi hi' => ?_
    have hat := List.getElem_of_eq hroots (i := i) (by simpa using hi)
    simp only [List.getElem_map, Prod.mk.injEq, Json.integer.injEq, Int.natCast_inj] at hat
    have howns := owns_of_mem_roots (List.getElem_mem hi)
    have howns' := owns_of_mem_roots (List.getElem_mem hi')
    refine Prod.ext hat.1 (Ref.ext ?_ hat.2)
    exact howns.1.trans (hserial.trans howns'.1.symm)
  exact (OrderedMap.mk.injEq ..).mpr hentries

/-- What is shown is one serial number, one list of nodes and one list of roots. -/
theorem IsShownBy.unique (hg : g.IsShownBy json) (hh : h.IsShownBy json) (hfits : g.FitsRefs) :
    g.serial = h.serial ∧ g.nodes = h.nodes ∧ g.roots = h.roots := by
  obtain ⟨entries, rfl, hlisted⟩ := hg
  obtain ⟨entries', hjson, hlisted'⟩ := hh
  simp only [Json.object.injEq, List.cons.injEq, Prod.mk.injEq, Json.integer.injEq, true_and, and_true,
    Json.array.injEq, Int.natCast_inj] at hjson
  obtain ⟨hserial, hroots, rfl⟩ := hjson
  have hfits' : h.FitsRefs := ⟨hserial ▸ hfits.1, hlisted'.1.symm.trans hlisted.1 ▸ hfits.2⟩
  have hnodes : g.nodes.toList.map some = h.nodes.toList.map some :=
    (hlisted.map_ofJson? hfits).symm.trans (hlisted'.map_ofJson? hfits')
  have hlist : g.nodes.toList = h.nodes.toList :=
    (List.map_inj_right fun _ _ => Option.some.inj).1 hnodes
  exact ⟨hserial, Array.toList_inj.1 hlist, roots_eq_of_indices hserial hroots⟩

/-- **Nothing is lost in writing.** Nodes are read from what is written for them. The values from which
nodes are read are those that have a canonical form, and that is what is written for the node, so
writing what was read changes nothing the second time. A snapshot of a generation has an entry for every
node, which is read as the node with its index, name and attributes beside it; and generations with the
same snapshot have the same nodes and roots.

A number that fits a reference has 32 bits (`SchemaGraph.Ref.limit`). -/
theorem snapshot_faithful :
    (∀ node : Node, Node.ofJson? node.toJson = some node ↔ node.Fits) ∧
    (∀ {json node}, Node.ofJson? json = some node ↔ node.Fits ∧ NodeForm json node.toJson) ∧
    (∀ {json form}, (Node.ofJson? json).map Node.toJson = some form →
      NodeForm json form ∧ (Node.ofJson? form).map Node.toJson = some form) ∧
    ∀ g : Generation, g.FitsRefs →
      (∀ P, OneType P → g.store.Among P → ∃ json, g.snapshot = .ok json) ∧
      ∀ json, g.snapshot = .ok json →
        (∃ entries,
          json = .object
            [("serial", .integer g.serial),
              ("top_levels", .object (g.roots.entries.map fun e => (e.1, .integer e.2.index))),
              ("types", .array entries)] ∧
          g.IsListedBy entries ∧ entries.map Node.ofJson? = g.nodes.toList.map some) ∧
        ∀ h : Generation, h.snapshot = .ok json →
          g.serial = h.serial ∧ g.nodes = h.nodes ∧ g.roots = h.roots := by
  refine ⟨fun node => Node.ofJson?_toJson, Node.ofJson?_eq_some_iff, fun {json form} hform => ?_,
    fun g hg => ⟨fun P htypes hamong => ?_, fun json hjson => ⟨?_, fun h hjson' => ?_⟩⟩⟩
  · obtain ⟨node, hread, rfl⟩ := Option.map_eq_some_iff.1 hform
    obtain ⟨hfits, hcanonical⟩ := Node.ofJson?_eq_some_iff.1 hread
    exact ⟨hcanonical, Option.map_eq_some_iff.2 ⟨node, Node.ofJson?_toJson.2 hfits, rfl⟩⟩
  · obtain ⟨json, hjson, -⟩ := (snapshot_ends hamong).exists_ok fun _ hnot => hnot htypes
    exact ⟨json, hjson⟩
  · obtain ⟨entries, hentries, hlisted⟩ := isShownBy_of_snapshot hjson
    exact ⟨entries, hentries, hlisted, hlisted.map_ofJson? hg⟩
  · exact (isShownBy_of_snapshot hjson).unique (isShownBy_of_snapshot hjson') hg

/-- An integer or nothing, under a name. -/
def amounts : Generation where
  options := ⟨false⟩
  nodes := #[.primitive .null, .primitive .integer, .union (.ofList [⟨0, 1⟩, ⟨0, 0⟩])]
  store :=
    { serial := 0
      slots := #[none, none, some (.singleton .names (.singleton "Amount"))]
      roots := ∅ }
  roots := .ofList [("amount", ⟨0, 2⟩)]
  announced := false
  children_inBounds := by decide
  roots_inBounds := by decide

theorem among_amounts : amounts.store.Among OwnKind := by
  refine AttributeStore.among_of_slots fun attributes hslot a ha => ?_
  have hslots : amounts.store.slots.toList =
    [none, none, some (.singleton .names (.singleton "Amount"))] := rfl
  simp only [hslots, List.mem_cons, List.not_mem_nil, or_false, false_or, Option.some.injEq,
    reduceCtorEq] at hslot
  obtain rfl := hslot
  obtain rfl := List.mem_singleton.1 ha
  exact .inl rfl

/-- A union with a note, whose members are not in order, and one of them is there twice. -/
def scribbled : Json :=
  .object
    [("members", .array
        [.array [.integer 0, .integer 1],
          .object [("index", .integer 0), ("serial", .integer 0), ("was", .string "empty")],
          .object [("serial", .integer 0), ("index", .integer 1)]]),
      ("note", .string "not sure"), ("kind", .string "union")]

/-- The scribbled union is the one of the amounts, and their snapshot has an entry for it. -/
theorem snapshot_faithful_amounts :
    Node.ofJson? scribbled = some (.union (.ofList [⟨0, 0⟩, ⟨0, 1⟩])) ∧
    NodeForm scribbled (Node.union (.ofList [⟨0, 0⟩, ⟨0, 1⟩])).toJson ∧
    (Node.ofJson? (Node.union (.ofList [⟨0, 0⟩, ⟨0, 1⟩])).toJson).map Node.toJson =
      some (Node.union (.ofList [⟨0, 0⟩, ⟨0, 1⟩])).toJson ∧
    amounts.FitsRefs ∧ ∃ json entries, amounts.snapshot = .ok json ∧
      json = .object
        [("serial", .integer 0), ("top_levels", .object [("amount", .integer 2)]),
          ("types", .array entries)] ∧
      entries.map Node.ofJson? = [some (.primitive .null), some (.primitive .integer),
        some (.union (.ofList [⟨0, 0⟩, ⟨0, 1⟩]))] := by
  obtain ⟨-, -, hform, hsnapshot⟩ := snapshot_faithful
  have hread : Node.ofJson? scribbled = some (.union (.ofList [⟨0, 0⟩, ⟨0, 1⟩])) := rfl
  have hwritten := congrArg (Option.map Node.toJson) hread
  have hfits : amounts.FitsRefs := ⟨by decide, by decide⟩
  obtain ⟨hexists, hall⟩ := hsnapshot amounts hfits
  obtain ⟨json, hjson⟩ := hexists OwnKind oneType_ownKind among_amounts
  obtain ⟨⟨entries, hentries, -, hnodes⟩, -⟩ := hall json hjson
  exact ⟨hread, (hform hwritten).1, (hform hwritten).2, hfits, json, entries, hjson, hentries, hnodes⟩

end Generation

end SchemaGraph
