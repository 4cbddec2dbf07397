import SchemaGraph.Proofs.DeclarationOrder
import SchemaGraph.Proofs.Outcome

/-!
# Reads that are checked

What is asked of a frozen generation goes through tables: which nodes a walk has seen, which parents
every node has, the nodes themselves. The walk and the parents are given here with every read of a table
checked (`SchemaGraph.Generation.walkTable`, `SchemaGraph.Generation.parentTable`), so that a read past
the end is a fault. No such fault is ever met, and the answers are the ones that
`SchemaGraph.Generation.reachable` and `SchemaGraph.Generation.parents` give without tables
(`SchemaGraph.Generation.readsInBounds`).

All of this rests on what the type of generations carries: children and roots are nodes of the
generation. A table that has an entry for every node is long enough.
-/

namespace SchemaGraph

namespace Generation

variable {g : Generation} {r parent : Ref} {unseen : List Nat} {stack children : List Ref}
  {seen : Array Bool} {i : Nat}

/-! ### The table of what was seen -/

/-- A node that is marked for the first time is one node less to mark. -/
theorem countP_mark_lt (hi : i < seen.size) (hnot : ¬seen[i] = true) :
    (seen.set i true).countP (!·) < seen.countP (!·) := by
  have hfalse : seen[i] = false := Bool.eq_false_of_not_eq_true hnot
  have hpos : 0 < seen.countP (!·) :=
    Array.countP_pos_iff.2 ⟨seen[i], Array.getElem_mem hi, by simp [hfalse]⟩
  rw [Array.countP_set hi, hfalse]
  simp only [Bool.not_false, if_true, Bool.not_true, Bool.false_eq_true, if_false]
  omega

/-- The walk with a table of what was seen: the references it lists, with their nodes. -/
def walkTable (g : Generation) (seen : Array Bool) : List Ref → Except Fault (List (Ref × Node))
  | [] => .ok []
  | r :: rest =>
    if hr : r.index < seen.size then
      if hseen : seen[r.index] then g.walkTable seen rest
      else do
        let node ← g.get r
        let visits ← g.walkTable (seen.set r.index true) (node.children ++ rest)
        return (r, node) :: visits
    else .error (.pastEnd seen.size r.index)
termination_by stack => (seen.countP (!·), stack.length)
decreasing_by
  · right
    simp
  · left
    exact countP_mark_lt hr hseen

/-- The table says of every node whether it was seen. -/
structure Tables (g : Generation) (seen : Array Bool) (unseen : List Nat) : Prop where
  size : seen.size = g.size
  nodup : unseen.Nodup
  mem_iff : ∀ {i}, i ∈ unseen ↔ seen[i]? = some false

theorem tables_replicate : g.Tables (Array.replicate g.size false) (List.range g.size) where
  size := Array.size_replicate
  nodup := List.nodup_range
  mem_iff {i} := by simp [Array.getElem?_replicate]

theorem Tables.mark (h : g.Tables seen unseen) (hr : r.index < seen.size) :
    g.Tables (seen.set r.index true) (unseen.erase r.index) where
  size := by simpa using h.size
  nodup := h.nodup.erase _
  mem_iff {i} := by
    rw [h.nodup.mem_erase_iff, h.mem_iff, Array.getElem?_set]
    by_cases hi : r.index = i
    · simp [hi]
    · simp [hi, Ne.symm hi]

/-- **The table is never read past its end**, and neither are the nodes: what is on the stack are nodes
of the generation, since roots and children are. -/
theorem walkTable_ends (h : g.Tables seen unseen) (hstack : ∀ r ∈ stack, g.Owns r) :
    Ends (g.walkTable seen stack) (fun _ => False) fun visits =>
      visits.map Prod.fst = g.walk unseen stack ∧ ∀ v ∈ visits, g.get v.1 = .ok v.2 := by
  fun_induction walk g unseen stack generalizing seen with
  | case1 unseen =>
    rw [walkTable]
    exact ⟨rfl, fun v hv => absurd hv List.not_mem_nil⟩
  | case2 unseen r rest hr ih =>
    obtain ⟨hown, hrest⟩ := List.forall_mem_cons.1 hstack
    obtain ⟨node, hn⟩ := hown.exists_node
    have hchildren : ∀ c ∈ node.children ++ rest, g.Owns c := fun c hc =>
      (List.mem_append.1 hc).elim (owns_of_mem_children hn) (hrest c)
    have hchildrenAt : g.childrenAt r.index = node.children := by rw [childrenAt, hn]
    rw [hchildrenAt] at ih ⊢
    obtain ⟨hlt, hfalse⟩ := Array.getElem?_eq_some_iff.1 (h.mem_iff.1 hr)
    rw [walkTable, dif_pos hlt, dif_neg (by simp [hfalse]), hown.get_eq_ok hn]
    refine (ih (h.mark hlt) hchildren).bind fun visits hvisits => ⟨?_, ?_⟩
    · rw [List.map_cons, hvisits.1]
    · exact List.forall_mem_cons.2 ⟨hown.get_eq_ok hn, hvisits.2⟩
  | case3 unseen r rest hr ih =>
    obtain ⟨hown, hrest⟩ := List.forall_mem_cons.1 hstack
    have hlt : r.index < seen.size := h.size ▸ hown.2
    have hseen : seen[r.index] = true := by
      by_contra hnot
      have hfalse : seen[r.index] = false := Bool.eq_false_of_not_eq_true hnot
      exact hr (h.mem_iff.2 (Array.getElem?_eq_some_iff.2 ⟨hlt, hfalse⟩))
    rw [walkTable, dif_pos hlt, dif_pos hseen]
    exact ih h hrest

/-- The walk of the whole generation, with a table. -/
def visits (g : Generation) : Except Fault (List (Ref × Node)) :=
  g.walkTable (Array.replicate g.size false) g.roots.values

theorem visits_ends : Ends g.visits (fun _ => False) fun visits =>
    visits.map Prod.fst = g.reachable ∧ ∀ v ∈ visits, g.get v.1 = .ok v.2 :=
  walkTable_ends tables_replicate fun _ => owns_of_mem_values

/-! ### The table of parents -/

/-- Enter a parent of one node. -/
def addParent (parent : Ref) (table : Array (SortedSet Ref)) (child : Ref) :
    Except Fault (Array (SortedSet Ref)) :=
  match table[child.index]? with
  | none => .error (.pastEnd table.size child.index)
  | some parents => .ok (table.setIfInBounds child.index (parents.insert parent))

/-- Enter a node as a parent of all its children. -/
def addParents (g : Generation) (table : Array (SortedSet Ref)) (entry : Node × Nat) :
    Except Fault (Array (SortedSet Ref)) :=
  entry.1.children.foldlM (addParent (g.refAt entry.2)) table

/-- The parents of every node, reachable or not. -/
def parentTable (g : Generation) : Except Fault (Array (SortedSet Ref)) :=
  g.nodes.toList.zipIdx.foldlM g.addParents (Array.replicate g.size ∅)

/-- The parents of a node, read off the table. -/
def parentsInTable (g : Generation) (r : Ref) : Except Fault (SortedSet Ref) := do
  r.requireSerial g.serial
  let table ← g.parentTable
  match table[r.index]? with
  | some parents => return parents
  | none => throw (.pastEnd table.size r.index)

/-- The table has an entry for each of `size` nodes, with the parents that `has` gives it. -/
structure Parented (size : Nat) (has : Nat → Ref → Prop) (table : Array (SortedSet Ref)) : Prop where
  size_eq : table.size = size
  mem_iff : ∀ {i parents}, table[i]? = some parents → ∀ {p}, p ∈ parents ↔ has i p

section Parents

variable {size : Nat} {has has' : Nat → Ref → Prop} {table : Array (SortedSet Ref)}

theorem Parented.congr (h : Parented size has table) (hsame : ∀ i p, has i p ↔ has' i p) :
    Parented size has' table :=
  ⟨h.size_eq, fun hi _ => (h.mem_iff hi).trans (hsame _ _)⟩

theorem Parented.addParent_ends (h : Parented size has table) {child : Ref}
    (hchild : child.index < size) :
    Ends (addParent parent table child) (fun _ => False)
      (Parented size fun i p => has i p ∨ p = parent ∧ child.index = i) := by
  have hlt : child.index < table.size := h.size_eq.symm ▸ hchild
  rw [addParent, Array.getElem?_eq_getElem hlt]
  refine ⟨by simpa using h.size_eq, fun {i parents} hi p => ?_⟩
  rw [Array.getElem?_setIfInBounds] at hi
  by_cases heq : child.index = i
  · rw [if_pos heq, if_pos hlt] at hi
    obtain rfl := Option.some.inj hi
    rw [SortedSet.mem_insert, h.mem_iff (Array.getElem?_eq_getElem hlt), heq]
    tauto
  · rw [if_neg heq] at hi
    rw [h.mem_iff hi]
    tauto

/-- What every step of a fold enters, and nothing else, is entered in the end. -/
theorem Parented.foldlM_ends {α : Type} {f : Array (SortedSet Ref) → α → Except Fault (Array (SortedSet Ref))}
    {adds : α → Nat → Ref → Prop} {as : List α} (h : Parented size has table)
    (hstep : ∀ {has table}, Parented size has table → ∀ a ∈ as,
      Ends (f table a) (fun _ => False) (Parented size fun i p => has i p ∨ adds a i p)) :
    Ends (as.foldlM f table) (fun _ => False)
      (Parented size fun i p => has i p ∨ ∃ a ∈ as, adds a i p) := by
  induction as generalizing has table with
  | nil => exact h.congr fun i p => by simp
  | cons a as ih =>
    rw [List.foldlM_cons]
    refine (hstep h a List.mem_cons_self).bind fun table' h' => ?_
    refine (ih h' fun h a ha => hstep h a (List.mem_cons_of_mem _ ha)).mono fun _ hall => ?_
    exact hall.congr fun i p => by simp [or_assoc]

theorem Parented.addParents_ends (h : Parented g.size has table) {entry : Node × Nat}
    (hchildren : ∀ c ∈ entry.1.children, c.index < g.size) :
    Ends (g.addParents table entry) (fun _ => False) (Parented g.size fun i p =>
      has i p ∨ ∃ c ∈ entry.1.children, p = g.refAt entry.2 ∧ c.index = i) :=
  h.foldlM_ends fun h c hc => h.addParent_ends (hchildren c hc)

end Parents

theorem mem_zipIdx_nodes_iff {node : Node} {index : Nat} :
    (node, index) ∈ g.nodes.toList.zipIdx ↔ g.node? index = some node := by
  rw [List.mem_zipIdx_iff_getElem?, Array.getElem?_toList, node?]

theorem mem_parentsAt_iff {index : Nat} : parent ∈ g.parentsAt index ↔
    ∃ i node, g.node? i = some node ∧ parent = g.refAt i ∧ ∃ c ∈ node.children, c.index = index := by
  rw [parentsAt, SortedSet.mem_ofList, List.mem_map]
  constructor
  · rintro ⟨i, hi, rfl⟩
    obtain ⟨-, hmem⟩ := List.mem_filter.1 hi
    have hchild := of_decide_eq_true hmem
    cases hn : g.node? i with
    | none => simp [childrenAt, hn] at hchild
    | some node =>
      rw [childrenAt, hn] at hchild
      exact ⟨i, node, hn, rfl, _, hchild, rfl⟩
  · rintro ⟨i, node, hn, rfl, c, hc, rfl⟩
    refine ⟨i, List.mem_filter.2 ⟨List.mem_range.2 (lt_size_of_node? hn), decide_eq_true ?_⟩, rfl⟩
    rw [← (owns_of_mem_children hn hc).eq_refAt, childrenAt, hn]
    exact hc

/-- **The table of parents is never written or read past its end**, and lists the parents of every
node. -/
theorem parentTable_ends : Ends g.parentTable (fun _ => False)
    (Parented g.size fun i p => p ∈ g.parentsAt i) := by
  have hempty : Parented g.size (fun _ _ => False) (Array.replicate g.size ∅) := by
    refine ⟨Array.size_replicate, fun {i parents} hi p => ?_⟩
    rw [Array.getElem?_replicate] at hi
    split at hi
    · obtain rfl := Option.some.inj hi
      exact iff_of_false List.not_mem_nil id
    · cases hi
  have hchildren : ∀ entry ∈ g.nodes.toList.zipIdx, ∀ c ∈ entry.1.children, c.index < g.size :=
    fun entry hentry c hc => (owns_of_mem_children (mem_zipIdx_nodes_iff.1 hentry) hc).2
  have hfold := hempty.foldlM_ends (f := g.addParents) fun h entry hentry =>
    h.addParents_ends (hchildren entry hentry)
  refine hfold.mono fun table h => h.congr fun i p => ?_
  rw [mem_parentsAt_iff, false_or]
  constructor
  · rintro ⟨⟨node, index⟩, hentry, c, hc, rfl, rfl⟩
    exact ⟨index, node, mem_zipIdx_nodes_iff.1 hentry, rfl, c, hc, rfl⟩
  · rintro ⟨index, node, hn, rfl, c, hc, rfl⟩
    exact ⟨(node, index), mem_zipIdx_nodes_iff.2 hn, c, hc, rfl, rfl⟩

theorem parents_eq_parentsInTable : g.parents r = g.parentsInTable r := by
  obtain ⟨table, htable, hparented⟩ := g.parentTable_ends.exists_ok fun _ => id
  rw [parents, parentsInTable, htable]
  refine bind_congr fun _ => ?_
  change _ = match table[r.index]? with
    | some parents => Except.ok parents
    | none => Except.error (Fault.pastEnd table.size r.index)
  by_cases hlt : r.index < table.size
  · have hentry := Array.getElem?_eq_getElem hlt
    rw [hentry, if_pos (hparented.size_eq ▸ hlt)]
    exact congrArg Except.ok (SortedSet.ext Ref.lt_irrefl fun p => (hparented.mem_iff hentry).symm)
  · rw [Array.getElem?_eq_none (Nat.le_of_not_lt hlt), if_neg (hparented.size_eq ▸ hlt),
      hparented.size_eq]
    rfl

/-! ### Whatever is asked -/

theorem Owns.parents_eq_ok (hr : g.Owns r) : g.parents r = .ok (g.parentsAt r.index) := by
  rw [parents, Ref.requireSerial_eq_ok hr.1]
  change (if r.index < g.size then Except.ok (g.parentsAt r.index)
    else Except.error (Fault.pastEnd g.size r.index)) = _
  rw [if_pos hr.2]

/-- Whatever a generation is asked, only entries that are there are read. -/
structure ReadsInBounds (g : Generation) : Prop where
  /-- The walk with its table goes through, and visits what can be reached. -/
  walk : ∃ visits, g.visits = .ok visits ∧ visits.map Prod.fst = g.reachable ∧
    ∀ v ∈ visits, g.get v.1 = .ok v.2
  /-- The table of parents is filled, and has an entry for every node. -/
  parents : ∀ r, g.Owns r → ∃ parents, g.parentsInTable r = .ok parents ∧ g.parents r = .ok parents
  /-- There is a graph of dependencies, whose vertices have nodes with children among them. -/
  dependencies : ∃ d, g.dependencies = .ok d ∧ d.nodes = g.reachable ∧
    ∀ r ∈ d.nodes, ∃ node, g.get r = .ok node ∧ ∀ c ∈ node.children, c ∈ d.nodes
  /-- There is an order of declarations, and whatever is in a component has a node. -/
  declarationOrder : ∃ d groups, g.dependencies = .ok d ∧ g.declarationOrder = .ok groups ∧
    ∀ component ∈ d.components, ∀ r ∈ component, ∃ node, g.get r = .ok node

/-- **A frozen generation is never read where there is nothing.** -/
theorem readsInBounds (g : Generation) : g.ReadsInBounds := by
  obtain ⟨d, hd, hnodes, -⟩ := g.dependencies_ends
  obtain ⟨groups, hgroups, -⟩ := g.declarationOrder_ends
  have hnode : ∀ r ∈ d.nodes, ∃ node, g.get r = .ok node ∧ ∀ c ∈ node.children, c ∈ d.nodes := by
    intro r hr
    have hreach := mem_reachable_iff.1 (hnodes ▸ hr)
    obtain ⟨node, hn⟩ := hreach.owns.exists_node
    refine ⟨node, hreach.owns.get_eq_ok hn, fun c hc => ?_⟩
    exact hnodes ▸ mem_reachable_iff.2 (hreach.child hn hc)
  refine ⟨g.visits_ends.exists_ok fun _ => id, fun r hr => ?_, ⟨d, hd, hnodes, hnode⟩,
    ⟨d, groups, hd, hgroups, fun component hcomponent r hr => ?_⟩⟩
  · exact ⟨_, parents_eq_parentsInTable ▸ hr.parents_eq_ok, hr.parents_eq_ok⟩
  · have hvertex := (Digraph.sublist_nodes_of_mem_components hcomponent).subset hr
    exact (hnode r hvertex).imp fun _ => And.left

end Generation

end SchemaGraph
