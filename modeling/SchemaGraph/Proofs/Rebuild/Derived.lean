import SchemaGraph.Proofs.Rebuild.Run

/-!
# The derived generation

What a rebuilding without groups makes of the old generation, once its workspace is frozen
(`SchemaGraph.Derivation.Derives`): every old node that is visited has an image, the image is
reached from the new roots, it is stored as the old node with every child replaced by its image
(or leads there by one indirection), and there are no other nodes
(`SchemaGraph.Derivation.Derives.stands`, `SchemaGraph.Derivation.Derives.reaches`,
`SchemaGraph.Derivation.Derives.exists_image`).

Freezing a finished workspace never fails: no slot is empty, and nothing was ever given a child
without a slot (`SchemaGraph.Derivation.Finished.ofDraft_ends`).
-/

namespace SchemaGraph

/-! ### Freezing -/

namespace Generation

theorem childrenFault?_eq_none {serial size index : Nat} {nodes : List Node}
    (h : ∀ node ∈ nodes, ∀ c ∈ node.children, c.serial = serial ∧ c.index < size) :
    childrenFault? serial size index nodes = none := by
  induction nodes generalizing index with
  | nil => rfl
  | cons node rest ih =>
    rw [childrenFault?, ih fun n hn => h n (by simp [hn]), Option.or_none,
      List.findSome?_eq_none_iff]
    intro c hc
    obtain ⟨hserial, hsize⟩ := h node (by simp) c hc
    rw [childFault?, if_neg (not_not.2 hserial), if_pos hsize]

theorem rootFault?_eq_none {serial size : Nat} {r : Ref}
    (h : r.serial = serial ∧ r.index < size) : rootFault? serial size r = none := by
  rw [rootFault?, if_neg (not_not.2 h.1), if_pos h.2]

/-- What is asked of nodes and roots when they are frozen. -/
def Freezable (serial : Nat) (nodes : Array Node) (roots : OrderedMap String Ref) : Prop :=
  childrenFault? serial nodes.size 0 nodes.toList = none ∧
    roots.values.findSome? (rootFault? serial nodes.size) = none

/-- Freezing either says what is wrong with some child or root, or changes nothing. -/
theorem freeze_ends_faulty {options : Options} {nodes : Array Node} {store : AttributeStore}
    {roots : OrderedMap String Ref} :
    Ends (freeze options nodes store roots)
      (fun f => childrenFault? store.serial nodes.size 0 nodes.toList = some f ∨
        roots.values.findSome? (rootFault? store.serial nodes.size) = some f)
      fun h => Freezable store.serial nodes roots ∧
        h.options = options ∧ h.nodes = nodes ∧ h.store = store ∧ h.roots = roots ∧
          h.announced = false := by
  rw [freeze]
  split
  · next fault hchildren => exact .inl hchildren
  · next hchildren =>
    split
    · next fault hroots => exact .inr hroots
    · next hroots => exact ⟨⟨hchildren, hroots⟩, rfl, rfl, rfl, rfl, rfl⟩

/-- The attributes make no difference to whether nodes can be frozen. -/
theorem freeze_ends_freezable {options : Options} {nodes : Array Node} {store : AttributeStore}
    {roots : OrderedMap String Ref} :
    Ends (freeze options nodes store roots) (fun _ => ¬Freezable store.serial nodes roots) fun h =>
      Freezable store.serial nodes roots ∧
        h.options = options ∧ h.nodes = nodes ∧ h.store = store ∧ h.roots = roots ∧
          h.announced = false := by
  refine freeze_ends_faulty.mono_bad fun f hf hfits => ?_
  rcases hf with hchildren | hroots
  · simp [hfits.1] at hchildren
  · simp [hfits.2] at hroots

/-- The slots are their nodes, or one of them is empty and named. -/
theorem filledSlots_ends {serial index : Nat} {slots : List (Option Node)} :
    Ends (filledSlots serial index slots)
      (fun f => ∃ i, slots[i]? = some none ∧ f = .unresolved ⟨serial, index + i⟩)
      fun nodes => slots = nodes.map some := by
  induction slots generalizing index with
  | nil => exact rfl
  | cons slot rest ih =>
    cases slot with
    | none => exact ⟨0, rfl, rfl⟩
    | some node =>
      refine Ends.map ((ih.mono_bad ?_).mono fun nodes hrest => ?_)
      · rintro _ ⟨i, hi, rfl⟩
        exact ⟨i + 1, hi, by rw [Nat.add_right_comm, Nat.add_assoc]⟩
      · rw [hrest, List.map_cons]

section Slots

variable {b : Draft} {nodes : List Node} (hnodes : b.slots.toList = nodes.map some)

include hnodes

theorem not_isEmptyAt_of_slots {r : Ref} : ¬b.IsEmptyAt r := by
  rintro ⟨-, hslot⟩
  rw [← Array.getElem?_toList, hnodes, List.getElem?_map] at hslot
  simp at hslot

theorem size_eq_of_slots : nodes.toArray.size = b.size := by
  have hlength := congrArg List.length hnodes
  simpa [Draft.size] using hlength.symm

theorem exists_holds_of_mem {node : Node} (hn : node ∈ nodes) : ∃ r, b.Holds r node := by
  obtain ⟨index, hindex⟩ := List.getElem?_of_mem hn
  refine ⟨⟨b.serial, index⟩, rfl, ?_⟩
  rw [← Array.getElem?_toList, hnodes, List.getElem?_map, hindex]
  rfl

end Slots

/-- Freezing a draft whose children have slots names an empty slot, or says what is wrong with a root, or
makes the slots the nodes. -/
theorem ofDraft_ends_faulty {b : Draft}
    (hchildren : ∀ {r node}, b.Holds r node → ∀ c ∈ node.children, b.HasSlot c) :
    Ends (ofDraft b)
      (fun f => (∃ r, b.IsEmptyAt r ∧ f = .unresolved r) ∨
        (∀ r, ¬b.IsEmptyAt r) ∧ b.roots.values.findSome? (rootFault? b.serial b.size) = some f)
      fun g => ((∀ r, ¬b.IsEmptyAt r) ∧ ∀ r ∈ b.roots.values, b.HasSlot r) ∧
        g.options = b.options ∧ b.slots = g.nodes.map some ∧ g.store = b.store ∧
          g.roots = b.roots := by
  rw [ofDraft]
  refine (filledSlots_ends.mono_bad ?_).bind fun nodes hnodes => ?_
  · rintro _ ⟨i, hi, rfl⟩
    rw [Array.getElem?_toList] at hi
    exact .inl ⟨⟨b.serial, i⟩, ⟨rfl, hi⟩, by rw [Nat.zero_add]⟩
  have hempty : ∀ r, ¬b.IsEmptyAt r := fun r => not_isEmptyAt_of_slots hnodes
  have hsize := size_eq_of_slots hnodes
  refine (freeze_ends_faulty.mono_bad fun f hf => ?_).mono ?_
  · rcases hf with hchild | hroot
    · rw [childrenFault?_eq_none fun node hn c hc => ?_] at hchild
      · cases hchild
      · obtain ⟨r, hr⟩ := exists_holds_of_mem hnodes hn
        exact hsize ▸ hchildren hr c hc
    · exact .inr ⟨hempty, hsize ▸ hroot⟩
  · rintro g ⟨⟨-, hroots⟩, hoptions, hnodes', hstore, hroots', -⟩
    refine ⟨⟨hempty, fun r hr => ?_⟩, hoptions, ?_, hstore, hroots'⟩
    · obtain ⟨hserial, hindex⟩ := inBounds_of_rootFault? (List.findSome?_eq_none_iff.1 hroots r hr)
      exact ⟨hserial, hsize ▸ hindex⟩
    · rw [← Array.toList_inj, hnodes, hnodes']
      simp

/-- A draft without empty slots whose children and roots have slots can be frozen, and its slots
become the nodes. -/
theorem ofDraft_ends {b : Draft} (hempty : ∀ r, ¬b.IsEmptyAt r)
    (hchildren : ∀ {r node}, b.Holds r node → ∀ c ∈ node.children, b.HasSlot c)
    (hroots : ∀ r ∈ b.roots.values, b.HasSlot r) :
    Ends (ofDraft b) (fun _ => False) fun g =>
      g.options = b.options ∧ b.slots = g.nodes.map some ∧ g.store = b.store ∧
        g.roots = b.roots := by
  refine ((ofDraft_ends_faulty hchildren).mono_bad fun f hf => ?_).mono fun g hg => hg.2
  rcases hf with ⟨r, hr, -⟩ | ⟨-, hfault⟩
  · exact hempty r hr
  · rw [List.findSome?_eq_none_iff.2 fun r hr => rootFault?_eq_none (hroots r hr)] at hfault
    cases hfault

/-- What is known of a draft that could be frozen, whatever it was made by: no slot is empty, and the
slots are the nodes. -/
theorem of_ofDraft {b : Draft} {g : Generation} (h : ofDraft b = .ok g) :
    g.options = b.options ∧ b.slots = g.nodes.map some ∧ g.store = b.store ∧ g.roots = b.roots := by
  rw [ofDraft] at h
  obtain ⟨nodes, hslots, h⟩ := exists_of_bind_eq_ok h
  obtain ⟨-, hoptions, hnodes, hstore, hroots, -⟩ := freeze_ends_freezable.of_eq_ok h
  refine ⟨hoptions, ?_, hstore, hroots⟩
  rw [← Array.toList_inj, filledSlots_ends.of_eq_ok hslots, hnodes]
  simp

end Generation

/-! ### Finished workspaces -/

namespace Derivation

variable {d : Derivation} {w : Workspace} {new : Generation} {r s : Ref}

/-- **Every old node that is visited has a counterpart**, since the roots have images and so do
the children of a node that has one. -/
theorem Finished.exists_counterpart (h : d.Finished w) (hr : d.old.Visits d.plan.target r) :
    ∃ s, w.counterparts.find? r.index = some s := by
  -- no placeholder is left, so what has an image has a counterpart
  have hofImage : ∀ {index s}, w.image? index = some s → w.counterparts.find? index = some s :=
    fun {index s} hs => by simpa [Workspace.image?, h.placeholders] using hs
  induction hr with
  | @root name root hroot =>
    obtain ⟨s, hs⟩ := Option.isSome_iff_exists.1 (h.image _ hroot)
    exact ⟨s, hofImage hs⟩
  | @child r c node _ hn hc ih =>
    obtain ⟨s, hs⟩ := ih
    obtain ⟨_, _, _, hstands⟩ := h.grown.sound.counterpart hs
    obtain ⟨old, hold, hchildren, -⟩ := hstands.ready.node
    obtain rfl : old = node := Option.some.inj (hold.symm.trans hn)
    obtain ⟨s, hs⟩ := Option.isSome_iff_exists.1 (hchildren c hc)
    exact ⟨s, hofImage hs⟩

/-- A finished workspace can be frozen. -/
theorem Finished.ofDraft_ends (h : d.Finished w) :
    Ends (Generation.ofDraft w.draft) (fun _ => False) fun g =>
      g.options = w.draft.options ∧ w.draft.slots = g.nodes.map some ∧
        g.store = w.draft.store ∧ g.roots = w.draft.roots := by
  have hsound := h.grown.sound
  refine Generation.ofDraft_ends (fun r hr => ?_) (fun {r node} hr c hc => ?_) fun r hr => ?_
  · obtain ⟨index, hindex⟩ := hsound.empty hr
    simp [h.placeholders] at hindex
  · obtain ⟨index, hindex⟩ := hsound.filled hr
    obtain ⟨stored, attributes, home, hstands⟩ := hsound.counterpart hindex
    rcases hstands.leads with rfl | ⟨-, hleads⟩
    · obtain rfl := hr.inj hstands.holds
      obtain ⟨old, -, hchildren, rfl⟩ := hstands.ready.node
      obtain ⟨b, hb, rfl⟩ := Node.mem_children_mapChildren.1 (Node.mem_children_canonical.1 hc)
      obtain ⟨s, hs⟩ := Option.isSome_iff_exists.1 (hchildren b hb)
      exact imageOf_eq hs ▸ hsound.hasSlot hs
    · obtain rfl := hr.inj hleads
      obtain rfl := List.mem_singleton.1 hc
      exact hstands.holds.hasSlot
  · obtain ⟨e, he, rfl⟩ := List.mem_map.1 hr
    rw [h.roots] at he
    obtain ⟨root, hroot, rfl⟩ := List.mem_map.1 he
    obtain ⟨s, hs⟩ := Option.isSome_iff_exists.1 (h.image root hroot)
    exact imageOf_eq hs ▸ hsound.hasSlot hs

/-! ### Derived generations -/

/-- `new` is what a finished workspace becomes. -/
structure Derives (d : Derivation) (w : Workspace) (new : Generation) : Prop where
  finished : d.Finished w
  plan : d.plan.fault? d.old.serial = none
  options : new.options = d.old.options
  slots : w.draft.slots = new.nodes.map some
  store : new.store = w.draft.store
  roots : new.roots = w.draft.roots

namespace Derives

variable (h : d.Derives w new)

include h

theorem serial : new.serial = d.serial := by
  rw [Generation.serial, h.store]
  exact h.finished.grown.sound.serial

theorem holds_iff {node : Node} :
    w.draft.Holds r node ↔ r.serial = new.serial ∧ new.node? r.index = some node := by
  rw [Draft.Holds, h.serial, h.finished.grown.sound.serial, h.slots, Generation.node?]
  simp

theorem owns_of_visits (hr : d.old.Visits d.plan.target r) : d.old.Owns r := by
  obtain ⟨s, hs⟩ := h.finished.exists_counterpart hr
  obtain ⟨_, _, _, hstands⟩ := h.finished.grown.sound.counterpart hs
  obtain ⟨old, hold, -⟩ := hstands.ready.node
  refine ⟨?_, Generation.lt_size_of_node? hold⟩
  cases hr with
  | root hroot => exact Plan.serial_target h.plan (Generation.owns_of_mem_roots hroot).1
  | child _ hn hc => exact Plan.serial_target h.plan (Generation.owns_of_mem_children hn hc).1

omit h in
theorem target_of_visits (hplan : d.plan.fault? d.old.serial = none)
    (hr : d.old.Visits d.plan.target r) : d.plan.target r = r := by
  cases hr with
  | root _ => exact Plan.target_target hplan
  | child _ _ _ => exact Plan.target_target hplan

/-- A node has the image of the node that stands for it. -/
theorem imageOf_target : d.imageOf w (d.plan.target r) = d.imageOf w r := by
  rw [imageOf, goal, Plan.target_target h.plan]
  rfl

theorem counterpart_imageOf (hr : d.old.Visits d.plan.target r) :
    w.counterparts.find? r.index = some (d.imageOf w r) := by
  obtain ⟨s, hs⟩ := h.finished.exists_counterpart hr
  have hgoal : d.goal r = r.index := by rw [goal, target_of_visits h.plan hr]
  rw [imageOf_eq (hgoal ▸ Workspace.image?_of_counterpart hs), hs]

/-- **A visited node is stored with its children replaced by their images**, at its image or
where an indirection at its image leads. -/
theorem stands (hr : d.old.Visits d.plan.target r) :
    ∃ old attributes home, d.old.node? r.index = some old ∧ d.attributes r = .ok attributes ∧
      d.Stands w r.index (d.imageOf w r)
        ((old.mapChildren (d.imageOf w)).canonical d.mapping d.alphabetize) attributes home := by
  obtain ⟨node, attributes, home, hstands⟩ :=
    h.finished.grown.sound.counterpart (h.counterpart_imageOf hr)
  obtain ⟨old, hold, -, rfl⟩ := hstands.ready.node
  have hattributes := hstands.ready.attributes
  rw [← (h.owns_of_visits hr).eq_refAt] at hattributes
  exact ⟨old, attributes, home, hold, hattributes, hstands⟩

/-- If no slot was forwarded, it is stored at its image. -/
theorem node_of_direct (hdirect : w.draft.forwarded = false)
    (hr : d.old.Visits d.plan.target r) :
    ∃ old, d.old.node? r.index = some old ∧ new.node? (d.imageOf w r).index =
      some ((old.mapChildren (d.imageOf w)).canonical d.mapping d.alphabetize) := by
  obtain ⟨old, _, home, hold, -, hstands⟩ := h.stands hr
  refine ⟨old, hold, ?_⟩
  rcases hstands.leads with heq | ⟨hf, -⟩
  · exact (h.holds_iff.1 (heq ▸ hstands.holds)).2
  · simp [hdirect] at hf

/-- **There are no other nodes** than the images of visited ones. -/
theorem exists_image (hs : new.Owns s) :
    ∃ r, d.old.Visits d.plan.target r ∧ d.imageOf w r = s := by
  obtain ⟨node, hnode⟩ := hs.exists_node
  obtain ⟨index, hindex⟩ := h.finished.grown.sound.filled (h.holds_iff.2 ⟨hs.1, hnode⟩)
  obtain ⟨_, _, _, hstands⟩ := h.finished.grown.sound.counterpart hindex
  refine ⟨_, hstands.ready.met, ?_⟩
  have hsame := h.counterpart_imageOf hstands.ready.met
  exact Option.some.inj (hsame.symm.trans hindex)

/-- **Images are reached** from the new roots. -/
theorem reaches (hr : d.old.Visits d.plan.target r) : new.Reaches (d.imageOf w r) := by
  induction hr with
  | @root name root hroot =>
    rw [h.imageOf_target]
    have hbound : (name, d.imageOf w root) ∈ new.roots.entries := by
      rw [h.roots, h.finished.roots]
      exact List.mem_map_of_mem hroot
    exact .root hbound
  | @child r c node hr hn hc ih =>
    rw [h.imageOf_target]
    obtain ⟨old, _, home, hold, -, hstands⟩ := h.stands hr
    obtain rfl : old = node := Option.some.inj (hold.symm.trans hn)
    have hchild : d.imageOf w c ∈
        ((old.mapChildren (d.imageOf w)).canonical d.mapping d.alphabetize).children :=
      Node.mem_children_canonical.2 (Node.mem_children_mapChildren.2 ⟨c, hc, rfl⟩)
    have hhome : new.Reaches home := by
      rcases hstands.leads with heq | ⟨-, hleads⟩
      · exact heq ▸ ih
      · exact ih.child (h.holds_iff.1 hleads).2 (by simp)
    exact hhome.child (h.holds_iff.1 hstands.holds).2 hchild

end Derives

end Derivation

end SchemaGraph
