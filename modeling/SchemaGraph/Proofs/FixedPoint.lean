import SchemaGraph.Proofs.Rebuild.Distinct
import SchemaGraph.Proofs.Replacement

/-!
# The fixed point of rebuilding

Counting reachable nodes tells whether there is anything left to merge: a rebuilding never adds
nodes, and it takes some away exactly if two different nodes are the same in canonical form and
identity (`SchemaGraph.Generation.Rebuilds.length_le_and_lt_iff`), although such **twins** may lie on
cycles and are met in an order that depends on the roots. So the graph has no twins when
rebuilding stops, and neither a further rebuilding nor a collection takes a node away.

Without twins a rebuilding is a bijection of nodes that keeps attributes. With twins there are two
cases. If no slot was forwarded, twins have one image. Otherwise the removal of indirections drops
a node of its own.
-/

namespace SchemaGraph

namespace Generation

variable {g new : Generation} {r s : Ref} {settings : Settings} {plan : Plan}
  {P : AnyKind → Prop} {alphabetize announce : Bool}

/-! ### Twins -/

/-- Two nodes are the same in canonical form and in the attributes that take part in identity. -/
def Twins (g : Generation) (alphabetize : Bool) (r s : Ref) : Prop :=
  ∃ n n', g.node? r.index = some n ∧ g.node? s.index = some n' ∧
    n.canonical .preserving alphabetize = n'.canonical .preserving alphabetize ∧
    (g.store.atIndex r.index).identityTexts = (g.store.atIndex s.index).identityTexts

/-- Two different nodes that can be reached are twins. -/
def HasTwins (g : Generation) (alphabetize : Bool) : Prop :=
  ∃ r s, g.Reaches r ∧ g.Reaches s ∧ r ≠ s ∧ g.Twins alphabetize r s

theorem eq_of_twins (h : ¬g.HasTwins alphabetize) (hr : g.Reaches r) (hs : g.Reaches s)
    (htwins : g.Twins alphabetize r s) : r = s := by
  by_contra hne
  exact h ⟨r, s, hr, hs, hne, htwins⟩

/-- A plan that leaves every node where it is. -/
structure Stays (plan : Plan) : Prop where
  target : plan.target = id
  sources : ∀ r, plan.sources r = []

theorem stays_replace : Stays (.replace []) := ⟨rfl, fun _ => rfl⟩

theorem stays_empty : Stays (.substitute ∅) := ⟨rfl, fun _ => rfl⟩

theorem visits_iff (hplan : Stays plan) : g.Visits plan.target r ↔ g.Reaches r := by
  rw [hplan.target]
  rfl

/-- What can be reached is met by a collection. -/
theorem Reaches.visits (hr : g.Reaches r) : g.Visits (Plan.substitute ∅).target r :=
  (visits_iff stays_empty).2 hr

theorem attributes_of_stays (hplan : Stays plan) :
    (g.derivation plan settings).attributes r = .ok (g.store.atIndex r.index) := by
  change (plan.sources r).foldlM _ _ = _
  rw [hplan.sources]
  rfl

theorem same_iff_twins (hplan : Stays plan) (hmapping : settings.mapping = .preserving) :
    (g.derivation plan settings).Same r s ↔ g.Twins settings.alphabetize r s := by
  have hmap : ∀ n : Node, (n.mapChildren plan.target).canonical settings.mapping
      settings.alphabetize = n.canonical .preserving settings.alphabetize := fun n => by
    rw [hplan.target, Node.mapChildren_id, hmapping]
  constructor
  · rintro ⟨⟨n, n', hn, hn', hnode⟩, a, a', ha, ha', htexts⟩
    obtain rfl := Except.ok.inj ((attributes_of_stays hplan).symm.trans ha)
    obtain rfl := Except.ok.inj ((attributes_of_stays hplan).symm.trans ha')
    exact ⟨n, n', hn, hn', (hmap n).symm.trans (hnode.trans (hmap n')), htexts⟩
  · rintro ⟨n, n', hn, hn', hnode, htexts⟩
    exact ⟨⟨n, n', hn, hn', (hmap n).trans (hnode.trans (hmap n').symm)⟩, _, _,
      attributes_of_stays hplan, attributes_of_stays hplan, htexts⟩

theorem distinct_of_not_hasTwins (hplan : Stays plan) (hmapping : settings.mapping = .preserving)
    (h : ¬g.HasTwins settings.alphabetize) : (g.derivation plan settings).Distinct := by
  intro r s hr hs hsame
  exact eq_of_twins h ((visits_iff hplan).1 hr) ((visits_iff hplan).1 hs)
    ((same_iff_twins hplan hmapping).1 hsame)

/-! ### Counting -/

section Counting

variable {w : Workspace} (hnew : (g.derivation plan settings).Derives w new) (hplan : Stays plan)

include hnew hplan

theorem exists_reaches_image (hs : new.Reaches s) :
    ∃ r, g.Reaches r ∧ (g.derivation plan settings).imageOf w r = s := by
  obtain ⟨r, hr, himage⟩ := hnew.exists_image hs.owns
  exact ⟨r, (visits_iff hplan).1 hr, himage⟩

/-- Without twins, there are as many nodes as before. -/
theorem length_eq_of_not_hasTwins (hmapping : settings.mapping = .preserving)
    (h : ¬g.HasTwins settings.alphabetize) :
    new.reachable.length = g.reachable.length := by
  refine Nat.le_antisymm
    (length_reachable_le _ fun s hs => exists_reaches_image hnew hplan hs) ?_
  refine length_reachable_le_of_injective _
    (fun r hr => hnew.reaches ((visits_iff hplan).2 hr)) fun r s hr hs heq => ?_
  exact hnew.imageOf_inj (distinct_of_not_hasTwins hplan hmapping h)
    ((visits_iff hplan).2 hr) ((visits_iff hplan).2 hs) heq

end Counting

/-- **A rebuilding never adds nodes, and takes some away exactly if there are twins.** -/
theorem Rebuilds.length_le_and_lt_iff (h : g.Rebuilds (fixedPoint alphabetize announce) new) :
    new.reachable.length ≤ g.reachable.length ∧
      (new.reachable.length < g.reachable.length ↔ g.HasTwins alphabetize) := by
  cases h with
  | @direct w mid hmid hdirect =>
    refine ⟨length_reachable_le _ fun s hs => exists_reaches_image hmid stays_replace hs,
      fun hlt => ?_, fun htwins => ?_⟩
    · by_contra hnone
      have hlength := length_eq_of_not_hasTwins hmid stays_replace rfl hnone
      omega
    · -- one of the twins is not needed: the other one has the same image
      obtain ⟨r, s, hr, hs, hne, htwins⟩ := htwins
      have hsame := hmid.imageOf_eq_of_same rfl hdirect hr hs
        ((same_iff_twins stays_replace rfl).2 htwins)
      refine length_reachable_lt
        ((g.derivation (.replace []) (fixedPoint alphabetize announce)).imageOf w) hr fun t ht => ?_
      obtain ⟨r', hr', himage⟩ := exists_reaches_image hmid stays_replace ht
      by_cases heq : r' = r
      · exact ⟨s, hs, hne.symm, hsame.symm.trans (heq ▸ himage)⟩
      · exact ⟨r', hr', heq, himage⟩
  | @removing w v mid _ hmid hforwarded hnew =>
    have hends : mid.EndsWell := plan_fault?_eq_none.1 hnew.plan
    -- a forwarded slot is an indirection, and no node of the result comes from it
    have hlt : new.reachable.length < mid.reachable.length := by
      obtain ⟨s, hs⟩ := exists_isIndirection hmid hforwarded
      refine length_reachable_lt ((mid.derivation (.substitute mid.indirectionMap)
        (removal alphabetize announce)).imageOf v) hs.1 fun t ht => ?_
      obtain ⟨r, hr, himage⟩ := hnew.exists_image ht.owns
      obtain ⟨hreach, hnot⟩ := reaches_of_visits hends hr
      exact ⟨r, hreach, fun heq => hnot (heq ▸ hs), himage⟩
    have hle : mid.reachable.length ≤ g.reachable.length :=
      length_reachable_le _ fun s hs => exists_reaches_image hmid stays_replace hs
    have htwins : g.HasTwins alphabetize := by
      by_contra hnone
      have hdirect := hmid.direct (distinct_of_not_hasTwins stays_replace rfl hnone)
      simp [hdirect] at hforwarded
    exact ⟨by omega, fun _ => htwins, fun _ => by omega⟩

/-! ### Graphs without twins -/

/-- **A derivation makes no twins** that folds no node on a cycle: they would be the images of twins. -/
theorem not_hasTwins_of_direct {w : Workspace} (hnew : (g.derivation plan settings).Derives w new)
    (hplan : Stays plan) (hmapping : settings.mapping = .preserving)
    (hdirect : w.draft.forwarded = false) (hnone : ¬g.HasTwins settings.alphabetize) :
    ¬new.HasTwins settings.alphabetize := by
  have hdistinct := distinct_of_not_hasTwins hplan hmapping hnone
  rintro ⟨_, _, hx, hy, hne, n₁, n₁', hn₁, hn₁', hnode, htexts⟩
  obtain ⟨r, hr, rfl⟩ := exists_reaches_image hnew hplan hx
  obtain ⟨s, hs, rfl⟩ := exists_reaches_image hnew hplan hy
  have hvisits : ∀ {t}, g.Reaches t → g.Visits plan.target t := (visits_iff hplan).2
  obtain ⟨n, hn, himage⟩ := hnew.node_of_direct hdirect (hvisits hr)
  obtain ⟨n', hn', himage'⟩ := hnew.node_of_direct hdirect (hvisits hs)
  obtain rfl := Option.some.inj (himage.symm.trans hn₁)
  obtain rfl := Option.some.inj (himage'.symm.trans hn₁')
  refine hne (congrArg _ (eq_of_twins hnone hr hs ⟨n, n', hn, hn', ?_, ?_⟩))
  · -- images tell children apart, so equality of nodes goes back
    change ((n.mapChildren _).canonical settings.mapping settings.alphabetize).canonical _ _ =
      ((n'.mapChildren _).canonical settings.mapping settings.alphabetize).canonical _ _ at hnode
    rw [hmapping, Node.canonical_canonical, Node.canonical_canonical, Node.canonical_mapChildren,
      Node.canonical_mapChildren] at hnode
    rw [← Node.mapChildren_id (n := n.canonical _ _), ← Node.mapChildren_id (n := n'.canonical _ _)]
    refine Node.mapChildren_eq_of_mapChildren_eq (fun c hc c' hc' heq => ?_) hnode
    rw [Node.mem_children_canonical] at hc hc'
    exact hnew.imageOf_inj hdistinct (hvisits (hr.child hn hc)) (hvisits (hs.child hn' hc')) heq
  · rw [hnew.atIndex_imageOf hdistinct (hvisits hr) (attributes_of_stays hplan),
      hnew.atIndex_imageOf hdistinct (hvisits hs) (attributes_of_stays hplan)] at htexts
    exact htexts

/-- **A graph without twins is rebuilt to one**, in the next generation. -/
theorem Rebuilds.not_hasTwins (h : g.Rebuilds (fixedPoint alphabetize announce) new)
    (hnone : ¬g.HasTwins alphabetize) : ¬new.HasTwins alphabetize ∧ new.serial = g.serial + 1 := by
  cases h with
  | removing hmid hforwarded _ =>
    have hdirect := hmid.direct (distinct_of_not_hasTwins stays_replace rfl hnone)
    simp [hdirect] at hforwarded
  | direct hmid hdirect =>
    exact ⟨not_hasTwins_of_direct hmid stays_replace rfl hdirect hnone, hmid.serial⟩

/-! ### The loop -/

/-- What a rebuilding returns is rebuilt. -/
theorem rebuilds_of_returns (h : (g.rebuildOnce alphabetize announce).Returns new) :
    g.Rebuilds (fixedPoint alphabetize announce) new :=
  (rebuildOnce_ends (P := fun _ => True) fun _ _ _ => trivial).of_returns h

/-- **The loop stops exactly when the number of reachable nodes stays the same.** -/
theorem settle_eq :
    g.settle alphabetize announce = (do
      let next ← g.rebuildOnce alphabetize announce
      if next.reachable.length = g.reachable.length then return next
      else next.settle alphabetize announce) := by
  rw [settle]
  refine Transform.bind_congr fun next hnext => ?_
  have hle := (rebuilds_of_returns hnext).length_le_and_lt_iff.1
  by_cases heq : next.reachable.length = g.reachable.length
  · rw [if_pos heq, if_neg (by omega)]
  · rw [if_neg heq, if_pos (by omega)]

/-- Without twins, the loop stops after one rebuilding. -/
theorem settle_eq_rebuildOnce (h : ¬g.HasTwins alphabetize) :
    g.settle alphabetize announce = g.rebuildOnce alphabetize announce := by
  rw [settle]
  refine (Transform.bind_congr fun next hnext => ?_).trans (bind_pure _)
  exact if_neg fun hlt => h ((rebuilds_of_returns hnext).length_le_and_lt_iff.2.1 hlt)

/-- Without twins, a rebuilding meets no fault and leaves as many nodes as before. -/
theorem rebuildOnce_ends_of_not_hasTwins (hP : OneType P) (hg : g.store.Among P)
    (h : ¬g.HasTwins alphabetize) :
    (g.rebuildOnce alphabetize announce).Ends (fun _ => False) (fun _ => g.MayLoseMarkers P)
      fun new => new.serial = g.serial + 1 ∧ new.reachable.length = g.reachable.length := by
  refine ((rebuildOnce_ends hg).mono_bad ?_).mono fun new hnew => ?_
  · rintro f (hnot | ⟨-, w, mid, hmid, hforwarded, -⟩)
    · exact hnot hP
    · have hdirect := hmid.direct (distinct_of_not_hasTwins stays_replace rfl h)
      simp [hdirect] at hforwarded
  · obtain ⟨hle, hlt⟩ := hnew.length_le_and_lt_iff
    refine ⟨(hnew.not_hasTwins h).2, Nat.le_antisymm hle ?_⟩
    exact Nat.le_of_not_lt fun hshrinks => h (hlt.1 hshrinks)

/-- What a collection is told. -/
def collection (alphabetize announce : Bool) : Settings :=
  ⟨"garbage collect", .preserving, alphabetize, announce⟩

/-- **A collection rebuilds everything that can be reached**, and meets no fault but a clash of
types. -/
theorem collect_ends (hg : g.store.Among P) :
    (g.collect alphabetize announce).Ends (fun _ => ¬OneType P) (fun _ => g.MayLoseMarkers P)
      fun out => ∃ w new, out = .derived new ∧
        (g.derivation (.substitute ∅) (collection alphabetize announce)).Derives w new := by
  have hfaultless : OneType P →
      (g.derivation (.substitute ∅) (collection alphabetize announce)).Faultless P :=
    fun hP => ⟨rfl, fun _ hr => hr, hP⟩
  have hends : (g.collect alphabetize announce).Ends _ (fun _ => g.MayLoseMarkers P) _ :=
    substitute_ends hg rfl fun w new hnew =>
      (lostMarkers?_ends_of_derives hg hnew fun _ hs => (visits_iff stays_empty).2 hs).mono_bad
        fun _ hnot h => hnot h.types
  exact hends.mono_bad fun _ hnot hP => hnot (hfaultless hP)

/-- Without twins, a collection meets no fault and leaves as many nodes as before. -/
theorem collect_ends_of_not_hasTwins (hP : OneType P) (hg : g.store.Among P)
    (h : ¬g.HasTwins alphabetize) :
    (g.collect alphabetize announce).Ends (fun _ => False) (fun _ => g.MayLoseMarkers P)
      fun out => ∃ new, out = .derived new ∧ new.reachable.length = g.reachable.length := by
  refine ((collect_ends hg).mono_bad fun _ hnot => hnot hP).mono ?_
  rintro out ⟨w, new, rfl, hnew⟩
  exact ⟨new, rfl, length_eq_of_not_hasTwins hnew stays_empty rfl h⟩

/-- **Rebuilding reaches a fixed point.** A rebuilding never adds reachable nodes, and takes some
away exactly if there are twins; so the loop, which goes on until their number stays the same,
ends. Unless indirections run in circles on the way (or markers are lost, which takes a foreign
attribute kind under the name of provenance), it returns a graph without twins, and without equal
nodes of equal identity in particular. That graph is settled by one rebuilding, and neither this
nor a collection changes the number of its nodes. -/
theorem settle_reaches_fixed_point (hP : OneType P) (hg : g.store.Among P)
    (alphabetize announce : Bool) :
    (∀ h new, (Generation.rebuildOnce h alphabetize announce).Returns new →
      new.reachable.length ≤ h.reachable.length ∧
        (new.reachable.length < h.reachable.length ↔ h.HasTwins alphabetize)) ∧
    (∀ h, Generation.settle h alphabetize announce = (do
      let next ← h.rebuildOnce alphabetize announce
      if next.reachable.length = h.reachable.length then return next
      else next.settle alphabetize announce)) ∧
    (g.settle alphabetize announce).Ends (fun f => f = .indirectionCycle)
      (fun _ => g.MayLoseMarkers P) fun new =>
        ¬new.HasTwins alphabetize ∧
        (∀ r s, new.Reaches r → new.Reaches s → new.node? r.index = new.node? s.index →
          (new.store.atIndex r.index).identityTexts = (new.store.atIndex s.index).identityTexts →
          r = s) ∧
        new.settle alphabetize announce = new.rebuildOnce alphabetize announce ∧
        (new.rebuildOnce alphabetize announce).Ends (fun _ => False)
          (fun _ => g.MayLoseMarkers P) (fun next =>
            next.serial = new.serial + 1 ∧ next.reachable.length = new.reachable.length) ∧
        (new.collect alphabetize announce).Ends (fun _ => False)
          (fun _ => g.MayLoseMarkers P) fun out =>
            ∃ next, out = .derived next ∧ next.reachable.length = new.reachable.length := by
  refine ⟨fun h new hnew => (rebuilds_of_returns hnew).length_le_and_lt_iff, fun _ => settle_eq, ?_⟩
  have hlost : ∀ {h : Generation}, h.options = g.options →
      h.MayLoseMarkers P = g.MayLoseMarkers P := fun hoptions => by
    rw [MayLoseMarkers, hoptions]
    rfl
  have hstep : ∀ h : Generation, h.store.Among P ∧ h.options = g.options →
      (h.rebuildOnce alphabetize announce).Ends (fun f => f = .indirectionCycle)
        (fun _ => g.MayLoseMarkers P) fun new => (new.store.Among P ∧ new.options = g.options) ∧
          h.Rebuilds (fixedPoint alphabetize announce) new := by
    rintro h ⟨hamong, hoptions⟩
    rw [← hlost hoptions]
    refine ((rebuildOnce_ends hamong).mono_bad ?_).mono fun new hnew =>
      ⟨⟨hnew.among hamong, hnew.options.trans hoptions⟩, hnew⟩
    rintro f (hnot | ⟨rfl, -⟩)
    · exact absurd hP hnot
    · rfl
  refine (settle_ends hstep ⟨hg, rfl⟩).mono ?_
  rintro new ⟨⟨hamong, hoptions⟩, last, -, hlast, hnot⟩
  -- the last rebuilding took nothing away, so there were no twins before it, and there are none now
  have hbefore : ¬last.HasTwins alphabetize := fun htwins =>
    hnot (hlast.length_le_and_lt_iff.2.2 htwins)
  have hnone := (hlast.not_hasTwins hbefore).1
  refine ⟨hnone, fun r s hr hs hnode htexts => ?_, settle_eq_rebuildOnce hnone, ?_, ?_⟩
  · obtain ⟨n, hn⟩ := hr.owns.exists_node
    exact eq_of_twins hnone hr hs ⟨n, n, hn, hnode.symm.trans hn, rfl, htexts⟩
  · rw [← hlost hoptions]
    exact rebuildOnce_ends_of_not_hasTwins hP hamong hnone
  · rw [← hlost hoptions]
    exact collect_ends_of_not_hasTwins hP hamong hnone

/-- The two entwined classes are twins, and there are no twins left when the graph is settled. -/
theorem settle_entwined_hasTwins :
    entwined.HasTwins true ∧
    (entwined.settle true false).Ends (fun f => f = .indirectionCycle) (fun _ => False) fun new =>
      ¬new.HasTwins true ∧
      new.settle true false = new.rebuildOnce true false := by
  have htop : ("top", (⟨0, 0⟩ : Ref)) ∈ entwined.roots.entries := by decide
  have hroot : entwined.Reaches ⟨0, 0⟩ := .root htop
  have hchild : (⟨0, 1⟩ : Ref) ∈
      (Node.object [⟨"next", ⟨0, 1⟩, false⟩, ⟨"first", ⟨0, 0⟩, true⟩]).children := by decide
  have htwins : entwined.HasTwins true :=
    ⟨⟨0, 0⟩, ⟨0, 1⟩, hroot, hroot.child rfl hchild, by decide, _, _, rfl, rfl, rfl, rfl⟩
  have hlost : entwined.MayLoseMarkers OwnKind = False := eq_false not_mayLoseMarkers_ownKind
  have hstore : entwined.store.Among OwnKind := AttributeStore.among_empty
  obtain ⟨-, -, hends⟩ := settle_reaches_fixed_point oneType_ownKind hstore true false
  rw [hlost] at hends
  exact ⟨htwins, hends.mono fun new hnew => ⟨hnew.1, hnew.2.2.1⟩⟩

end Generation

end SchemaGraph
