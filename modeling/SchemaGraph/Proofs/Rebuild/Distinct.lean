import SchemaGraph.Proofs.Rebuild.Derived

/-!
# Rebuilding nodes that are all different

If no two old nodes that are visited are the same in canonical form and identity
(`SchemaGraph.Derivation.Distinct`), nothing is merged on the way, although nodes are compared
while some of their children are placeholders: images are different, no slot is forwarded, and a
counterpart has exactly the attributes of its old node (`SchemaGraph.Derivation.Apart`). The three
go together. Two rebuilt nodes are equal only if the old ones are, because images tell the
children apart; so no node is ever found to be known, and what is found for a child stays
different from what is found for another.

The other way round, two old nodes that are the same end in one place
(`SchemaGraph.Derivation.Derives.imageOf_eq_of_same`), unless nodes on cycles are not looked for.
-/

namespace SchemaGraph

namespace Derivation

variable {d : Derivation} {w w' : Workspace} {new : Generation} {r s : Ref}

/-- The two old nodes would be stored as one, if the same children had the same images. -/
structure Same (d : Derivation) (r s : Ref) : Prop where
  node : ∃ n n', d.old.node? r.index = some n ∧ d.old.node? s.index = some n' ∧
    (n.mapChildren d.plan.target).canonical d.mapping d.alphabetize =
      (n'.mapChildren d.plan.target).canonical d.mapping d.alphabetize
  identity : ∃ attributes attributes', d.attributes r = .ok attributes ∧
    d.attributes s = .ok attributes' ∧ attributes.identityTexts = attributes'.identityTexts

/-- No two old nodes that are visited are the same. -/
def Distinct (d : Derivation) : Prop :=
  ∀ r s, d.old.Visits d.plan.target r → d.old.Visits d.plan.target s → d.Same r s → r = s

/-- Nothing was merged so far. -/
structure Apart (d : Derivation) (w : Workspace) : Prop where
  image_inj : ∀ {i j r}, w.image? i = some r → w.image? j = some r → i = j
  direct : w.draft.forwarded = false
  attributes : ∀ {index r attributes}, w.counterparts.find? index = some r →
    d.attributes (d.old.refAt index) = .ok attributes →
      w.draft.store.atIndex r.index = attributes
  fresh : ∀ {r}, r.serial = w.draft.serial → (∀ node, ¬w.draft.Holds r node) →
    w.draft.store.atIndex r.index = ∅

section Invariant

variable (hplan : d.plan.fault? d.old.serial = none) (hdistinct : d.Distinct)

include hplan

/-- Where images are different, equality of rebuilt nodes comes from equality of old ones. -/
theorem Apart.same {i j : Nat} {node : Node} {attributes attributes' : Attributes}
    (hw : d.Apart w) (hi : d.Ready w i node attributes) (hj : d.Ready w j node attributes')
    (htexts : attributes.identityTexts = attributes'.identityTexts) :
    d.Same (d.old.refAt i) (d.old.refAt j) := by
  obtain ⟨n, hn, hchildren, hnode⟩ := hi.node
  obtain ⟨n', hn', hchildren', hnode'⟩ := hj.node
  refine ⟨⟨n, n', hn, hn', ?_⟩, attributes, attributes', hi.attributes, hj.attributes, htexts⟩
  -- the nodes are the same with children replaced by images, and images tell children apart
  rw [hnode, Node.canonical_mapChildren, Node.canonical_mapChildren] at hnode'
  rw [Node.canonical_mapChildren, Node.canonical_mapChildren]
  refine Node.mapChildren_eq_of_mapChildren_eq (fun b hb c hc heq => ?_) hnode'
  rw [Node.mem_children_canonical] at hb hc
  obtain ⟨s, hs⟩ := Option.isSome_iff_exists.1 (hchildren b hb)
  obtain ⟨t, ht⟩ := Option.isSome_iff_exists.1 (hchildren' c hc)
  rw [imageOf_eq hs, imageOf_eq ht] at heq
  have hgoal : d.goal b = d.goal c := hw.image_inj hs (heq ▸ ht)
  have hb' := Plan.serial_target hplan (Generation.owns_of_mem_children hn hb).1
  have hc' := Plan.serial_target hplan (Generation.owns_of_mem_children hn' hc).1
  exact Ref.ext (hb'.trans hc'.symm) hgoal

include hdistinct

/-- **Nothing is ever found to be known.** -/
theorem Apart.identity_eq_none {index : Nat} {node : Node} {attributes : Attributes}
    (hw : d.Apart w) (hsound : d.Sound w) (hready : d.Ready w index node attributes)
    (hsettled : w.counterparts.find? index = none) :
    w.draft.identities.find? (node, attributes.identityTexts) = none := by
  cases hid : w.draft.identities.find? (node, attributes.identityTexts) with
  | none => rfl
  | some known =>
    -- the node that is known would be the same as this one, and so the same old node
    obtain ⟨-, j, attributes', hready', htexts, hj⟩ := hsound.identity hid
    have hsame := hw.same hplan hready hready' htexts.symm
    have heq := congrArg Ref.index (hdistinct _ _ hready.met hready'.met hsame)
    obtain rfl : index = j := heq
    simp [hsettled] at hj

omit hplan hdistinct in
/-- Settling an old node keeps all apart if its counterpart is a slot that was empty or new. -/
theorem Apart.settleAs {index : Nat} {node : Node} {attributes : Attributes} {draft : Draft}
    (hw : d.Apart w) (hsound : d.Sound w) (hready : d.Ready w index node attributes)
    (hserial : r.serial = w.draft.serial) (hempty : ∀ n, ¬w.draft.Holds r n)
    (himage : ∀ {i}, w.image? i = some r → i = index) (hdirect : draft.forwarded = false)
    (hstore : w.draft.store.Writes r.index attributes draft.store)
    (hholds : ∀ {s n}, w.draft.Holds s n → draft.Holds s n) (hnew : draft.Holds r node) :
    d.Apart (w.settleAs index r draft) where
  image_inj := by
    intro i j s hi hj
    rw [Workspace.image?_settleAs] at hi hj
    have hinj := hw.image_inj (i := i) (j := j) (r := s)
    grind
  direct := hdirect
  attributes := by
    intro i s attributes' hi hattributes
    rw [Workspace.counterparts_settleAs] at hi
    split at hi
    · rename_i heq
      obtain rfl := heq
      obtain rfl := Option.some.inj hi
      obtain rfl : attributes = attributes' :=
        Except.ok.inj (hready.attributes.symm.trans hattributes)
      have hhere := hstore.here
      rw [hw.fresh hserial hempty, Attributes.combine_empty_left] at hhere
      exact (Except.ok.inj hhere).symm
    · obtain ⟨_, _, _, hstands⟩ := hsound.counterpart hi
      obtain ⟨stored, hstored⟩ := hstands.exists_holds
      have hne : s.index ≠ r.index := fun heq =>
        hempty stored (Ref.ext (hstored.1.trans hserial.symm) heq ▸ hstored)
      rw [Workspace.draft_settleAs, hstore.elsewhere _ hne, hw.attributes hi hattributes]
  fresh := by
    intro s hs hnot
    have hne : s.index ≠ r.index := fun heq =>
      hnot node (Ref.ext (hs.trans hnew.1.symm) heq ▸ hnew)
    rw [Workspace.draft_settleAs, hstore.elsewhere _ hne]
    exact hw.fresh (hs.trans hstore.serial) fun n hn => hnot n (hholds hn)

/-- **Every step keeps all apart.** -/
theorem Apart.step (hw : d.Apart w) (hsound : d.Sound w) (h : d.Step w w') : d.Apart w' := by
  -- the next slot is nobody's image
  have hnext : ∀ {i}, w.image? i ≠ some w.draft.nextRef := fun hi => by
    have hslot := (hsound.hasSlot hi).2
    simp [Draft.nextRef] at hslot
  cases h with
  | @reserve index hindex himage =>
    refine ⟨fun {i j r} hi hj => ?_, hw.direct, hw.attributes, fun {r} hr hempty => ?_⟩
    · have hinsert : ∀ k, ({ w with
          draft := { w.draft with slots := w.draft.slots.push none }
          placeholders := w.placeholders.insert index w.draft.nextRef } : Workspace).image? k =
            if index = k then some w.draft.nextRef else w.image? k := by
        intro k
        obtain ⟨hc, hp⟩ := Workspace.image?_eq_none_iff.1 himage
        simp only [Workspace.image?, OrderedMap.find?_insert]
        split
        · rename_i heq
          rw [← heq, hc, Option.none_or]
        · rfl
      rw [hinsert] at hi hj
      have hinj := hw.image_inj (i := i) (j := j) (r := r)
      grind
    · exact hw.fresh hr fun node hholds => hempty node ((Draft.holds_push_iff rfl).2 (.inl hholds))
  | share hready hsettled hplace hid hstore =>
    simp [hw.identity_eq_none hplan hdistinct hsound hready hsettled] at hid
  | store hready hsettled hplace hid hstore =>
    refine hw.settleAs hsound hready rfl (fun _ => Draft.not_holds_nextRef)
      (fun hi => absurd hi hnext) hw.direct hstore (fun hs => ?_) ?_
    · exact (Draft.holds_push_iff hstore.serial).2 (.inl hs)
    · exact (Draft.holds_push_iff hstore.serial).2 (.inr ⟨rfl, rfl⟩)
  | fold hready hsettled hplace hfolds hid hstore =>
    simp [hw.identity_eq_none hplan hdistinct hsound hready hsettled] at hid
  | @fill index node attributes slot store hready hsettled hplace hid hstore =>
    have hslot := (hsound.placeholder hplace).1
    refine hw.settleAs hsound hready hslot.1 (fun _ hs => hs.not_isEmptyAt hslot) (fun hi => ?_)
      hw.direct hstore (fun hs => hs.set hstore.serial hslot)
      (Draft.holds_set_self hstore.serial hslot)
    exact hw.image_inj hi (Workspace.image?_of_placeholder hsettled hplace)

theorem Grown.apart (hw : d.Grown w) : d.Apart w := by
  induction hw with
  | start =>
    refine ⟨fun hi _ => ?_, rfl, fun hi _ => ?_, fun _ _ => rfl⟩
    · simp [Workspace.image?, workspace, EmptyCollection.emptyCollection] at hi
    · simp [workspace, EmptyCollection.emptyCollection] at hi
  | step hw h ih => exact ih.step hplan hdistinct hw.sound h
  | bindRoots _ _ _ ih => exact ⟨ih.image_inj, ih.direct, ih.attributes, ih.fresh⟩

end Invariant

/-! ### Derived generations -/

namespace Derives

variable (h : d.Derives w new)

include h

/-- **Different old nodes have different images.** -/
theorem imageOf_inj (hdistinct : d.Distinct) (hr : d.old.Visits d.plan.target r)
    (hs : d.old.Visits d.plan.target s) (heq : d.imageOf w r = d.imageOf w s) : r = s := by
  have hapart := h.finished.grown.apart h.plan hdistinct
  have himage := Workspace.image?_of_counterpart (h.counterpart_imageOf hr)
  have himage' := Workspace.image?_of_counterpart (h.counterpart_imageOf hs)
  exact (h.owns_of_visits hr).eq_of_index_eq (h.owns_of_visits hs)
    (hapart.image_inj himage (heq ▸ himage'))

theorem direct (hdistinct : d.Distinct) : w.draft.forwarded = false :=
  (h.finished.grown.apart h.plan hdistinct).direct

/-- An image has the attributes of its old node. -/
theorem atIndex_imageOf (hdistinct : d.Distinct) (hr : d.old.Visits d.plan.target r)
    {attributes : Attributes} (hattributes : d.attributes r = .ok attributes) :
    new.store.atIndex (d.imageOf w r).index = attributes := by
  rw [(h.owns_of_visits hr).eq_refAt] at hattributes
  rw [h.store]
  exact (h.finished.grown.apart h.plan hdistinct).attributes (h.counterpart_imageOf hr) hattributes

/-- **Old nodes that are the same have one image**, if nodes on cycles are looked for and no slot
was forwarded. -/
theorem imageOf_eq_of_same (hfolds : d.plan.foldsCycles = true)
    (hdirect : w.draft.forwarded = false) (hr : d.old.Visits d.plan.target r)
    (hs : d.old.Visits d.plan.target s) (hsame : d.Same r s) : d.imageOf w r = d.imageOf w s := by
  obtain ⟨⟨n, n', hn, hn', hnode⟩, a, a', ha, ha', htexts⟩ := hsame
  -- an old node is found under its identity, which its children enter by their images
  have hhome : ∀ {r n a}, d.old.Visits d.plan.target r → d.old.node? r.index = some n →
      d.attributes r = .ok a → w.draft.identities.find?
        (((n.mapChildren d.plan.target).canonical d.mapping d.alphabetize).mapChildren
          (d.imageOf w), a.identityTexts) = some (d.imageOf w r) := by
    intro r n a hr hn ha
    obtain ⟨n₁, a₁, home, hn₁, ha₁, hstands⟩ := h.stands hr
    obtain rfl : n₁ = n := Option.some.inj (hn₁.symm.trans hn)
    obtain rfl : a₁ = a := Except.ok.inj (ha₁.symm.trans ha)
    have heq : d.imageOf w r = home := by
      rcases hstands.leads with heq | ⟨hf, -⟩
      · exact heq
      · simp [hdirect] at hf
    have hknown := hstands.known hfolds
    have hcomp : n₁.mapChildren (d.imageOf w) =
        (n₁.mapChildren d.plan.target).mapChildren (d.imageOf w) := by
      rw [Node.mapChildren_mapChildren]
      exact Node.mapChildren_congr fun c _ => h.imageOf_target.symm
    rw [hcomp, Node.canonical_mapChildren] at hknown
    rw [hknown, heq]
  have hfind := hhome hr hn ha
  rw [hnode, htexts] at hfind
  exact Option.some.inj (hfind.symm.trans (hhome hs hn' ha'))

end Derives

end Derivation

end SchemaGraph
