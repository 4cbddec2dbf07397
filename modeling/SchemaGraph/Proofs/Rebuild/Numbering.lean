import SchemaGraph.Proofs.Rebuild.Distinct
import SchemaGraph.Proofs.Rebuild.OrderOfRun
import SchemaGraph.Proofs.Sharing

/-!
# The numbers of rebuilt nodes

If the search of the old generation meets no node again from below, no placeholder is ever reserved
and each node is stored once all its children are there (`SchemaGraph.Derivation.Straight`). So
nothing is forwarded, and children come before their parents in the new generation.

If moreover no two old nodes are the same, each of them gets a slot of its own, and slots are given
in the order in which the search is done with the nodes
(`SchemaGraph.Derivation.Numbered.imageOf_eq`).
-/

namespace SchemaGraph

namespace Derivation

variable {d : Derivation} {w w' : Workspace} {s : Search} {new : Generation} {r : Ref}

/-- Nothing was reserved so far: each node is stored after its children. If no two old nodes are the
same, their counterparts are the slots, in the order of slots. -/
structure Straight (d : Derivation) (w : Workspace) : Prop where
  placeholders : ∀ index, w.placeholders.find? index = none
  direct : w.draft.forwarded = false
  children_lt : ∀ {r n}, w.draft.Holds r n → ∀ c ∈ n.children, c.index < r.index
  values : d.plan.fault? d.old.serial = none → d.Distinct →
    w.counterparts.values = (List.range w.draft.size).map (Ref.mk w.draft.serial)

theorem straight_workspace : d.Straight d.workspace where
  placeholders _ := rfl
  direct := rfl
  children_lt h := by simpa [workspace, Draft.ofGeneration] using h.2
  values _ _ := rfl

theorem Straight.of_sameNodes (h : d.Straight w) (hsame : w.SameNodes w') : d.Straight w' where
  placeholders := hsame.placeholders ▸ h.placeholders
  direct := hsame.forwarded.trans h.direct
  children_lt hr := h.children_lt ⟨hr.1.trans hsame.serial, hsame.slots ▸ hr.2⟩
  values hplan hdistinct := by
    rw [hsame.counterparts, hsame.serial, Draft.size, hsame.slots]
    exact h.values hplan hdistinct

/-- **A step that reserves nothing keeps this.** -/
theorem Straight.step (h : d.Straight w) (hw : d.Grown w) (hstep : d.Step w w')
    (hnone : ∀ index, w'.placeholders.find? index = none) : d.Straight w' := by
  have hsound := hw.sound
  cases hstep with
  | @reserve index hindex himage =>
    have hreserved := hnone index
    simp [OrderedMap.find?_insert] at hreserved
  | share hready hsettled hplace hid hstore =>
    refine ⟨hnone, h.direct, fun hr => h.children_lt ⟨hr.1.trans hstore.serial, hr.2⟩,
      fun hplan hdistinct => ?_⟩
    -- of different nodes none is known
    have hnew := (hw.apart hplan hdistinct).identity_eq_none hplan hdistinct hsound hready hsettled
    rw [hnew] at hid
    cases hid
  | @store index node attributes store hready hsettled hplace hid hstore =>
    refine ⟨hnone, h.direct, fun {r n} hr c hc => ?_, fun hplan hdistinct => ?_⟩
    · rcases (Draft.holds_push_iff hstore.serial).1 hr with hr | ⟨rfl, heq⟩
      · exact h.children_lt hr c hc
      · obtain rfl := Option.some.inj heq
        obtain ⟨old, -, hchildren, rfl⟩ := hready.node
        obtain ⟨child, hchild, rfl⟩ :=
          Node.mem_children_mapChildren.1 (Node.mem_children_canonical.1 hc)
        obtain ⟨image, himage⟩ := Option.isSome_iff_exists.1 (hchildren child hchild)
        rw [imageOf_eq himage]
        exact (hsound.hasSlot himage).2
    · change (w.counterparts.insert index w.draft.nextRef).values = _
      rw [OrderedMap.values, OrderedMap.entries_insert_of_find?_eq_none hsettled, List.map_append]
      change w.counterparts.values ++ [w.draft.nextRef] = _
      rw [h.values hplan hdistinct]
      change _ = (List.range (w.draft.slots.push (some node)).size).map (Ref.mk store.serial)
      rw [Array.size_push, List.range_succ, List.map_append, hstore.serial]
      rfl
  | fold _ _ hplace => simp [h.placeholders] at hplace
  | fill _ _ hplace => simp [h.placeholders] at hplace

/-- The rebuilding has come as far as the search, and has reserved nothing if no node was met
again. -/
structure Numbered (d : Derivation) (w : Workspace) (s : Search) : Prop where
  keys : w.counterparts.keys = s.done
  straight : s.reentered = [] → d.Straight w

theorem accompanies_numbered : d.Accompanies d.Numbered where
  start := ⟨rfl, fun _ => straight_workspace⟩
  done {w s} h {i} := by
    rw [← h.keys, ← not_iff_not, Bool.not_eq_true, Option.isSome_eq_false_iff,
      Option.isNone_iff_eq_none, OrderedMap.find?_eq_none_iff]
  same h hsame := ⟨hsame.counterparts ▸ h.keys, fun hnone => (h.straight hnone).of_sameNodes hsame⟩
  reserve h _ _ _ hcounterparts _ _ := ⟨hcounterparts ▸ h.keys, nofun⟩
  settle {w s index r draft} h hw hsettled hstep := by
    refine ⟨?_, fun hnone => (h.straight hnone).step hw hstep fun k => ?_⟩
    · change (w.counterparts.insert index r).keys = s.done ++ [index]
      rw [OrderedMap.keys_insert, if_neg (OrderedMap.find?_eq_none_iff.1 hsettled), h.keys]
    · rw [Workspace.placeholders_settleAs, (h.straight hnone).placeholders, ite_self]

/-- **A run numbers nodes by the search.** -/
theorem numbered_of_run (hgroups : d.plan.groups = []) (h : d.run = .ok w) : d.Numbered w d.search :=
  run_keeps accompanies_numbered hgroups h

/-- What is below no node that it comes after is met once. -/
theorem search_reentered_eq_nil (h : ∀ {i j}, j ∈ d.below i → j < i) : d.search.reentered = [] := by
  refine List.eq_nil_iff_forall_not_mem.2 fun k hk => ?_
  have hlt : ∀ {i j}, Relation.TransGen (fun i j => j ∈ d.below i) i j → j < i := by
    intro i j hij
    induction hij with
    | single hj => exact h hj
    | tail _ hj ih => exact Nat.lt_trans (h hj) ih
  exact Nat.lt_irrefl k (hlt (transGen_of_mem_search hk))

namespace Numbered

variable (h : d.Numbered w d.search) (hnew : d.Derives w new)

include h hnew

/-- The search is done with the nodes that are visited, and with no others. -/
theorem mem_done_iff {index : Nat} :
    index ∈ d.search.done ↔ d.old.Visits d.plan.target (d.old.refAt index) := by
  rw [← h.keys]
  constructor
  · intro hmem
    obtain ⟨s, hs⟩ : ∃ s, w.counterparts.find? index = some s :=
      Option.ne_none_iff_exists'.1 fun hnone => OrderedMap.find?_eq_none_iff.1 hnone hmem
    obtain ⟨_, _, _, hstands⟩ := hnew.finished.grown.sound.counterpart hs
    exact hstands.ready.met
  · intro hvisits
    by_contra hmem
    have hcounterpart := hnew.counterpart_imageOf hvisits
    rw [show (d.old.refAt index).index = index from rfl, OrderedMap.find?_eq_none_iff.2 hmem]
      at hcounterpart
    cases hcounterpart

/-- **A node gets the number of its place in the search**, if no node is met again and no two are the
same. -/
theorem imageOf_eq (hnone : d.search.reentered = []) (hdistinct : d.Distinct)
    (hr : d.old.Visits d.plan.target r) :
    d.imageOf w r = ⟨d.serial, d.search.done.idxOf r.index⟩ := by
  have hvalue := OrderedMap.getElem?_values_idxOf (hnew.counterpart_imageOf hr)
  rw [h.keys, (h.straight hnone).values hnew.plan hdistinct, List.getElem?_map,
    Option.map_eq_some_iff] at hvalue
  obtain ⟨place, hplace, heq⟩ := hvalue
  obtain ⟨hlt, rfl⟩ := List.getElem?_eq_some_iff.1 hplace
  rw [← heq, List.getElem_range, hnew.finished.grown.sound.serial]

/-- Children come before their parents. -/
theorem children_lt (hnone : d.search.reentered = []) {index : Nat} {c : Ref}
    (hc : c ∈ new.childrenAt index) : c.index < index := by
  rw [Generation.childrenAt] at hc
  split at hc
  · next n hn =>
    exact (h.straight hnone).children_lt (r := new.refAt index) (hnew.holds_iff.2 ⟨rfl, hn⟩) c hc
  · cases hc

end Numbered

end Derivation

end SchemaGraph
