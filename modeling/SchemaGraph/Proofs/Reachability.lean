import Mathlib.Data.List.Nodup
import SchemaGraph.Generation.Traversal

/-!
# What the roots reach

The depth-first walk of a generation lists exactly the nodes that can be reached from the roots
by following children, each once (`SchemaGraph.Generation.mem_reachable_iff`,
`SchemaGraph.Generation.nodup_reachable`). So statements about the length of the list are
statements about the number of reachable nodes, and a function between reachable nodes compares
two such numbers (`SchemaGraph.Generation.length_reachable_le`,
`SchemaGraph.Generation.length_reachable_lt`).

Reachability is a case of `SchemaGraph.Generation.Visits`, where each reference is first sent
through a map: this is how a substitution goes through its generation.
-/

namespace SchemaGraph

namespace Generation

variable {g h : Generation} {r s c : Ref} {node : Node} {target : Ref → Ref}

/-! ### References of a generation -/

/-- The reference is to a node of the generation. -/
def Owns (g : Generation) (r : Ref) : Prop := r.serial = g.serial ∧ r.index < g.size

theorem Owns.eq_refAt (hr : g.Owns r) : r = g.refAt r.index := by
  obtain ⟨serial, index⟩ := r
  obtain ⟨rfl, -⟩ := hr
  rfl

theorem Owns.eq_of_index_eq (hr : g.Owns r) (hs : g.Owns s) (h : r.index = s.index) : r = s := by
  rw [hr.eq_refAt, hs.eq_refAt, h]

theorem node?_isSome_iff {index : Nat} : (g.node? index).isSome ↔ index < g.size := by
  simp [node?, size]

theorem Owns.exists_node (hr : g.Owns r) : ∃ node, g.node? r.index = some node :=
  Option.isSome_iff_exists.1 (node?_isSome_iff.2 hr.2)

theorem lt_size_of_node? {index : Nat} (h : g.node? index = some node) : index < g.size :=
  node?_isSome_iff.1 (Option.isSome_iff_exists.2 ⟨node, h⟩)

theorem nodeAt_eq_ok_of_node? {index : Nat} (h : g.node? index = some node) :
    g.nodeAt index = .ok node := by
  rw [nodeAt, h]

theorem owns_of_mem_children {index : Nat} (hn : g.node? index = some node)
    (hc : c ∈ node.children) : g.Owns c :=
  g.children_inBounds node (Array.mem_of_getElem? hn) c hc

theorem owns_of_mem_roots {name : String} (h : (name, r) ∈ g.roots.entries) : g.Owns r :=
  g.roots_inBounds r (List.mem_map_of_mem h)

theorem owns_of_mem_values (h : r ∈ g.roots.values) : g.Owns r := g.roots_inBounds r h

theorem owns_of_mem_childrenAt {index : Nat} (hc : c ∈ g.childrenAt index) : g.Owns c := by
  rw [childrenAt] at hc
  split at hc
  · exact owns_of_mem_children ‹_› hc
  · simp at hc

theorem Owns.get_eq_ok (hr : g.Owns r) (hn : g.node? r.index = some node) : g.get r = .ok node := by
  rw [get, Ref.requireSerial, if_pos hr.1]
  exact nodeAt_eq_ok_of_node? hn

/-- The references to all nodes, reachable or not. -/
def refs (g : Generation) : List Ref := (List.range g.size).map g.refAt

theorem refAt_injective (g : Generation) : Function.Injective g.refAt :=
  fun _ _ heq => congrArg Ref.index heq

theorem mem_refs_iff : r ∈ g.refs ↔ g.Owns r := by
  rw [refs, List.mem_map]
  constructor
  · rintro ⟨index, hindex, rfl⟩
    exact ⟨rfl, List.mem_range.1 hindex⟩
  · exact fun hr => ⟨r.index, List.mem_range.2 hr.2, hr.eq_refAt.symm⟩

theorem nodup_refs : g.refs.Nodup := List.nodup_range.map g.refAt_injective

/-! ### Visits -/

/-- The nodes that are met from the roots, if every reference is first sent through `target`. -/
inductive Visits (g : Generation) (target : Ref → Ref) : Ref → Prop
  /-- A root is met. -/
  | root {name : String} {r : Ref} (h : (name, r) ∈ g.roots.entries) : g.Visits target (target r)
  /-- The children of a node that is met are met. -/
  | child {r c : Ref} {node : Node} (hr : g.Visits target r) (hn : g.node? r.index = some node)
      (hc : c ∈ node.children) : g.Visits target (target c)

/-- The nodes that can be reached from the roots. -/
def Reaches (g : Generation) (r : Ref) : Prop := g.Visits id r

theorem Reaches.root {name : String} (h : (name, r) ∈ g.roots.entries) : g.Reaches r :=
  Visits.root h

theorem reaches_of_mem_values (h : r ∈ g.roots.values) : g.Reaches r := by
  obtain ⟨e, he, rfl⟩ := List.mem_map.1 h
  exact .root he

theorem Reaches.child (hr : g.Reaches r) (hn : g.node? r.index = some node)
    (hc : c ∈ node.children) : g.Reaches c :=
  Visits.child hr hn hc

/-- Whether a generation announces itself makes no difference to what can be reached. -/
theorem reaches_announced_iff {announced : Bool} :
    ({ g with announced } : Generation).Reaches r ↔ g.Reaches r := by
  constructor
  · intro hr
    induction hr with
    | root hroot => exact .root hroot
    | child _ hn hc ih => exact ih.child hn hc
  · intro hr
    induction hr with
    | root hroot => exact .root hroot
    | child _ hn hc ih => exact ih.child hn hc

theorem Visits.owns (htarget : ∀ r, g.Owns r → g.Owns (target r)) (hr : g.Visits target r) :
    g.Owns r := by
  cases hr with
  | root h => exact htarget _ (owns_of_mem_roots h)
  | child _ hn hc => exact htarget _ (owns_of_mem_children hn hc)

theorem Reaches.owns (hr : g.Reaches r) : g.Owns r := Visits.owns (fun _ => id) hr

theorem Reaches.of_mem_childrenAt (hr : g.Reaches r) (hc : c ∈ g.childrenAt r.index) :
    g.Reaches c := by
  obtain ⟨node, hn⟩ := hr.owns.exists_node
  rw [childrenAt, hn] at hc
  exact hr.child hn hc

/-! ### The walk -/

theorem mem_of_mem_walk {unseen : List Nat} {stack : List Ref} (hr : r ∈ g.walk unseen stack)
    (hstack : ∀ s ∈ stack, g.Reaches s) : g.Reaches r := by
  fun_induction walk g unseen stack with
  | case1 => simp at hr
  | case2 unseen s rest hs ih =>
    have hreach : g.Reaches s := hstack s (by simp)
    rcases List.mem_cons.1 hr with rfl | hr
    · exact hreach
    · refine ih hr fun c hc => ?_
      rcases List.mem_append.1 hc with hc | hc
      · exact hreach.of_mem_childrenAt hc
      · exact hstack c (by simp [hc])
  | case3 unseen s rest hs ih => exact ih hr fun c hc => hstack c (by simp [hc])

theorem index_mem_of_mem_walk {unseen : List Nat} {stack : List Ref}
    (hr : r ∈ g.walk unseen stack) : r.index ∈ unseen := by
  fun_induction walk g unseen stack with
  | case1 => simp at hr
  | case2 unseen s rest hs ih =>
    rcases List.mem_cons.1 hr with rfl | hr
    · exact hs
    · exact List.mem_of_mem_erase (ih hr)
  | case3 unseen s rest hs ih => exact ih hr

theorem nodup_walk {unseen : List Nat} {stack : List Ref} (hunseen : unseen.Nodup) :
    (g.walk unseen stack).Nodup := by
  fun_induction walk g unseen stack with
  | case1 => simp
  | case2 unseen s rest hs ih =>
    refine List.nodup_cons.2 ⟨fun hmem => ?_, ih (hunseen.erase _)⟩
    exact hunseen.not_mem_erase (index_mem_of_mem_walk hmem)
  | case3 unseen s rest hs ih => exact ih hunseen

/-- What is on the stack is listed unless it was seen before, and so are the children of what is
listed. -/
theorem walk_closed (unseen : List Nat) {stack : List Ref} (hstack : ∀ s ∈ stack, g.Owns s) :
    (∀ s ∈ stack, s.index ∈ unseen → s ∈ g.walk unseen stack) ∧
      ∀ r ∈ g.walk unseen stack, ∀ c ∈ g.childrenAt r.index, c.index ∈ unseen →
        c ∈ g.walk unseen stack := by
  fun_induction walk g unseen stack with
  | case1 => simp
  | case2 unseen s rest hs ih =>
    have hs' : g.Owns s := hstack s (by simp)
    have hnew : ∀ c ∈ g.childrenAt s.index ++ rest, g.Owns c := by
      intro c hc
      rcases List.mem_append.1 hc with hc | hc
      · exact owns_of_mem_childrenAt hc
      · exact hstack c (by simp [hc])
    obtain ⟨ihstack, ihclosed⟩ := ih hnew
    -- a node with the index of `s` is `s`, and another one is still unseen further on
    have hstep : ∀ c, g.Owns c → c.index ∈ unseen →
        (c.index ∈ unseen.erase s.index → c ∈ g.walk (unseen.erase s.index)
          (g.childrenAt s.index ++ rest)) →
        c ∈ s :: g.walk (unseen.erase s.index) (g.childrenAt s.index ++ rest) := by
      intro c hc hmem himp
      by_cases heq : c.index = s.index
      · rw [hc.eq_of_index_eq hs' heq]
        exact List.mem_cons_self
      · exact List.mem_cons_of_mem _ (himp ((List.mem_erase_of_ne heq).2 hmem))
    refine ⟨fun c hc hmem => ?_, fun r hr c hc hmem => ?_⟩
    · rcases List.mem_cons.1 hc with rfl | hc
      · exact List.mem_cons_self
      · exact hstep c (hstack c (by simp [hc])) hmem
          (ihstack c (List.mem_append_right _ hc))
    · rcases List.mem_cons.1 hr with rfl | hr
      · exact hstep c (owns_of_mem_childrenAt hc) hmem
          (ihstack c (List.mem_append_left _ hc))
      · exact hstep c (owns_of_mem_childrenAt hc) hmem (ihclosed r hr c hc)
  | case3 unseen s rest hs ih =>
    obtain ⟨ihstack, ihclosed⟩ := ih fun c hc => hstack c (by simp [hc])
    refine ⟨fun c hc hmem => ?_, ihclosed⟩
    rcases List.mem_cons.1 hc with rfl | hc
    · exact absurd hmem hs
    · exact ihstack c hc hmem

/-- **The walk lists exactly what the roots reach.** -/
theorem mem_reachable_iff : r ∈ g.reachable ↔ g.Reaches r := by
  constructor
  · exact fun hr => mem_of_mem_walk hr fun s => reaches_of_mem_values
  · intro hr
    have hstack : ∀ s ∈ g.roots.values, g.Owns s := fun s => owns_of_mem_values
    obtain ⟨hin, hclosed⟩ := walk_closed (List.range g.size) hstack
    induction hr with
    | root he =>
      exact hin _ (List.mem_map_of_mem he) (List.mem_range.2 (owns_of_mem_roots he).2)
    | child _ hn hc ih =>
      refine hclosed _ ih _ ?_ (List.mem_range.2 (owns_of_mem_children hn hc).2)
      rw [childrenAt, hn]
      exact hc

/-- **The walk lists nothing twice.** -/
theorem nodup_reachable : g.reachable.Nodup := nodup_walk List.nodup_range

/-- **The walk misses no child** of what it lists. -/
theorem reachable_closed : ∀ r ∈ g.reachable, ∀ c ∈ g.childrenAt r.index, c ∈ g.reachable :=
  fun _ hr _ hc => mem_reachable_iff.2 ((mem_reachable_iff.1 hr).of_mem_childrenAt hc)

theorem walk_congr (hnodes : g.nodes = h.nodes) (unseen : List Nat) (stack : List Ref) :
    g.walk unseen stack = h.walk unseen stack := by
  have hchildren : ∀ index, g.childrenAt index = h.childrenAt index := fun index => by
    rw [childrenAt, childrenAt, node?, node?, hnodes]
  fun_induction walk g unseen stack with
  | case1 unseen => rw [walk]
  | case2 unseen r rest hmem ih => rw [walk, if_pos hmem, ih, hchildren]
  | case3 unseen r rest hnot ih => rw [walk, if_neg hnot, ih]

/-- **What is listed is a matter of nodes and roots alone.** -/
theorem reachable_congr (hnodes : g.nodes = h.nodes) (hroots : g.roots = h.roots) :
    g.reachable = h.reachable := by
  rw [reachable, reachable, walk_congr hnodes, size, size, hnodes, hroots]

/-! ### Comparing numbers of reachable nodes -/

/-- A generation whose nodes all come from those of another one is no larger. -/
theorem length_reachable_le (φ : Ref → Ref)
    (honto : ∀ s, h.Reaches s → ∃ r, g.Reaches r ∧ φ r = s) :
    h.reachable.length ≤ g.reachable.length := by
  have hsub : h.reachable ⊆ g.reachable.map φ := by
    intro s hs
    obtain ⟨r, hr, rfl⟩ := honto s (mem_reachable_iff.1 hs)
    exact List.mem_map_of_mem (mem_reachable_iff.2 hr)
  simpa using nodup_reachable.length_le_of_subset hsub

/-- If one of these nodes is not needed, it is smaller. -/
theorem length_reachable_lt (φ : Ref → Ref) (hr : g.Reaches r)
    (honto : ∀ s, h.Reaches s → ∃ r', g.Reaches r' ∧ r' ≠ r ∧ φ r' = s) :
    h.reachable.length < g.reachable.length := by
  have hsub : h.reachable ⊆ (g.reachable.erase r).map φ := by
    intro s hs
    obtain ⟨r', hr', hne, rfl⟩ := honto s (mem_reachable_iff.1 hs)
    exact List.mem_map_of_mem ((List.mem_erase_of_ne hne).2 (mem_reachable_iff.2 hr'))
  have hlen := nodup_reachable.length_le_of_subset hsub
  have hmem := mem_reachable_iff.2 hr
  have hpos := List.length_pos_of_mem hmem
  rw [List.length_map, List.length_erase_of_mem hmem] at hlen
  omega

/-- A generation whose nodes all have a place of their own in another one is no larger. -/
theorem length_reachable_le_of_injective (φ : Ref → Ref)
    (hinto : ∀ r, g.Reaches r → h.Reaches (φ r))
    (hinj : ∀ r s, g.Reaches r → g.Reaches s → φ r = φ s → r = s) :
    g.reachable.length ≤ h.reachable.length := by
  rw [← List.length_map φ]
  refine List.Nodup.length_le_of_subset (nodup_reachable.map_on fun r hr s hs => ?_) fun s hs => ?_
  · exact hinj r s (mem_reachable_iff.1 hr) (mem_reachable_iff.1 hs)
  · obtain ⟨r, hr, rfl⟩ := List.mem_map.1 hs
    exact mem_reachable_iff.2 (hinto r (mem_reachable_iff.1 hr))

end Generation

end SchemaGraph
