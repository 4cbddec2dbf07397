import Mathlib.Logic.Relation
import SchemaGraph.Proofs.Rebuild.Step

/-!
# The invariant of a rebuilding

What holds of the workspace at every moment (`SchemaGraph.Derivation.Sound`): the empty slots are
the placeholders, each of them reserved for one old node that has no counterpart yet; a
counterpart leads to the node that the old one was to be stored as, with every child replaced by
its image; every stored node is the counterpart of an old one; and an identity points to the node
that was first stored with it.

The four tables of the workspace are tied together by this in one go, because none of the parts is
kept by itself: that a filled slot is a counterpart needs that only placeholders are empty, and
that an identity still points to its node needs that no slot is filled twice.
-/

namespace SchemaGraph

namespace Derivation

/-- The counterpart `r` of an old node leads to `home`, where the node is stored: it is that
place, or an indirection to it. -/
structure Stands (d : Derivation) (w : Workspace) (index : Nat) (r : Ref) (node : Node)
    (attributes : Attributes) (home : Ref) : Prop where
  ready : d.Ready w index node attributes
  holds : w.draft.Holds home node
  leads : r = home ∨ (w.draft.forwarded = true ∧ w.draft.Holds r (.indirection home))
  known : d.plan.foldsCycles = true →
    w.draft.identities.find? (node, attributes.identityTexts) = some home

/-- The invariant of a rebuilding without groups. -/
structure Sound (d : Derivation) (w : Workspace) : Prop where
  serial : w.draft.serial = d.serial
  mapping : w.draft.mapping = d.mapping
  alphabetize : w.draft.alphabetize = d.alphabetize
  stamps : w.draft.stamps = false
  placeholder : ∀ {index r}, w.placeholders.find? index = some r →
    w.draft.IsEmptyAt r ∧ w.counterparts.find? index = none
  placeholder_inj : ∀ {i j r}, w.placeholders.find? i = some r →
    w.placeholders.find? j = some r → i = j
  empty : ∀ {r}, w.draft.IsEmptyAt r → ∃ index, w.placeholders.find? index = some r
  counterpart : ∀ {index r}, w.counterparts.find? index = some r →
    ∃ node attributes home, d.Stands w index r node attributes home
  identity : ∀ {node texts r}, w.draft.identities.find? (node, texts) = some r →
    w.draft.Holds r node ∧ ∃ index attributes, d.Ready w index node attributes ∧
      attributes.identityTexts = texts ∧ w.counterparts.find? index = some r
  filled : ∀ {r node}, w.draft.Holds r node → ∃ index, w.counterparts.find? index = some r
  folds : w.draft.forwarded = true → d.plan.foldsCycles = true

variable {d : Derivation} {w w' : Workspace} {index : Nat} {node : Node} {attributes : Attributes}
  {r home : Ref}

theorem Stands.grow (h : d.Stands w index r node attributes home) (hgrows : w.Grows w') :
    d.Stands w' index r node attributes home := by
  refine ⟨h.ready.grow hgrows, hgrows.holds h.holds, ?_, fun hf => hgrows.identity (h.known hf)⟩
  rcases h.leads with rfl | ⟨hf, hr⟩
  · exact .inl rfl
  · exact .inr ⟨hgrows.forwarded hf, hgrows.holds hr⟩

/-- A counterpart is a filled slot. -/
theorem Stands.exists_holds (h : d.Stands w index r node attributes home) :
    ∃ stored, w.draft.Holds r stored := by
  rcases h.leads with rfl | ⟨-, hr⟩
  · exact ⟨node, h.holds⟩
  · exact ⟨_, hr⟩

/-- An image is a slot of the new generation. -/
theorem Sound.hasSlot (hw : d.Sound w) (h : w.image? index = some r) : w.draft.HasSlot r := by
  rcases hc : w.counterparts.find? index with - | s
  · have hp : w.placeholders.find? index = some r := by simpa [Workspace.image?, hc] using h
    exact (hw.placeholder hp).1.hasSlot
  · obtain rfl : s = r := by simpa [Workspace.image?, hc] using h
    obtain ⟨node, attributes, home, hstands⟩ := hw.counterpart hc
    obtain ⟨stored, hr⟩ := hstands.exists_holds
    exact hr.hasSlot

/-! ### Every step takes nothing back -/

/-- Settling an old node takes nothing back if the draft does not, and if the new counterpart is
the placeholder where there is one. -/
theorem grows_settleAs {draft : Draft} (hsettled : w.counterparts.find? index = none)
    (himage : ∀ s, w.image? index = some s → s = r)
    (hholds : ∀ {s node}, w.draft.Holds s node → draft.Holds s node)
    (hidentity : ∀ {identity s}, w.draft.identities.find? identity = some s →
      draft.identities.find? identity = some s)
    (hforwarded : w.draft.forwarded = true → draft.forwarded = true) :
    w.Grows (w.settleAs index r draft) where
  image := by
    intro j s hs
    rw [Workspace.image?_settleAs]
    split
    · next heq =>
      obtain rfl := heq
      rw [himage s hs]
    · exact hs
  counterpart := by
    intro j s hs
    have hne : index ≠ j := fun heq => by simp [← heq, hsettled] at hs
    rw [Workspace.counterparts_settleAs, if_neg hne, hs]
  holds := hholds
  identity := hidentity
  forwarded := hforwarded

/-- The placeholder of an old node is what stands for it. -/
theorem eq_placeholder_of_image {slot : Ref} (hsettled : w.counterparts.find? index = none)
    (hplace : w.placeholders.find? index = some slot) :
    ∀ s, w.image? index = some s → s = slot := by
  intro s hs
  rw [Workspace.image?_of_placeholder hsettled hplace] at hs
  exact (Option.some.inj hs).symm

theorem Step.grows (hw : d.Sound w) (h : d.Step w w') : w.Grows w' := by
  -- an old node without a placeholder has no image that could change
  have hnone : ∀ {index r}, w.counterparts.find? index = none →
      w.placeholders.find? index = none → ∀ s, w.image? index = some s → s = r := by
    intro index r hsettled hplace s hs
    rw [Workspace.image?_eq_none_iff.2 ⟨hsettled, hplace⟩] at hs
    cases hs
  cases h with
  | @reserve index hindex himage =>
    refine ⟨fun {j s} hs => ?_, fun h => h, fun h => ?_, fun h => h, fun h => h⟩
    · have hne : index ≠ j := fun heq => by simp [← heq, himage] at hs
      simp only [Workspace.image?, OrderedMap.find?_insert, if_neg hne]
      exact hs
    · exact (Draft.holds_push_iff rfl).2 (.inl h)
  | @share index node attributes known store hready hsettled hplace hid hstore =>
    refine grows_settleAs hsettled (hnone hsettled hplace) (fun h => ?_) (fun h => h) fun h => h
    exact ⟨h.1.trans hstore.serial.symm, h.2⟩
  | @store index node attributes store hready hsettled hplace hid hstore =>
    refine grows_settleAs hsettled (hnone hsettled hplace) (fun h => ?_)
      (OrderedMap.find?_insert_of_find? hid) fun h => h
    exact (Draft.holds_push_iff hstore.serial).2 (.inl h)
  | @fold index node attributes known slot store hready hsettled hplace hfolds hid hstore =>
    have hslot := (hw.placeholder hplace).1
    exact grows_settleAs hsettled (eq_placeholder_of_image hsettled hplace)
      (fun h => h.set hstore.serial hslot) (fun h => h) fun _ => rfl
  | @fill index node attributes slot store hready hsettled hplace hid hstore =>
    have hslot := (hw.placeholder hplace).1
    refine grows_settleAs hsettled (eq_placeholder_of_image hsettled hplace)
      (fun h => h.set hstore.serial hslot) (fun h => ?_) fun h => h
    dsimp only
    split
    · exact h
    · next hnot =>
      have hnew := OrderedMap.contains_eq_false_iff.1 (Bool.eq_false_iff.2 hnot)
      exact OrderedMap.find?_insert_of_find? hnew h

/-! ### Every step keeps the invariant -/

/-- Settling an old node keeps the invariant if it empties no slot and fills only the one of the
old node, and if the new counterpart and a new identity are as they should be. -/
theorem Sound.settleAs {draft : Draft} (hw : d.Sound w)
    (hgrows : w.Grows (w.settleAs index r draft))
    (hserial : draft.serial = w.draft.serial) (hmapping : draft.mapping = w.draft.mapping)
    (halphabetize : draft.alphabetize = w.draft.alphabetize)
    (hstamps : draft.stamps = w.draft.stamps)
    (hempty : ∀ s, draft.IsEmptyAt s ↔
      w.draft.IsEmptyAt s ∧ w.placeholders.find? index ≠ some s)
    (hstands : ∃ node attributes home,
      d.Stands (w.settleAs index r draft) index r node attributes home)
    (hidentity : ∀ {node texts s}, draft.identities.find? (node, texts) = some s →
      w.draft.identities.find? (node, texts) = some s ∨
        (s = r ∧ draft.Holds r node ∧ ∃ attributes, d.Ready w index node attributes ∧
          attributes.identityTexts = texts))
    (hfilled : ∀ {s node}, draft.Holds s node → w.draft.Holds s node ∨ s = r)
    (hfolds : draft.forwarded = true → d.plan.foldsCycles = true) :
    d.Sound (w.settleAs index r draft) where
  serial := hserial.trans hw.serial
  mapping := hmapping.trans hw.mapping
  alphabetize := halphabetize.trans hw.alphabetize
  stamps := hstamps.trans hw.stamps
  placeholder := by
    intro j s hs
    rw [Workspace.placeholders_settleAs] at hs
    split at hs
    · simp at hs
    · rename_i hne
      obtain ⟨hs', hj⟩ := hw.placeholder hs
      refine ⟨(hempty s).2 ⟨hs', fun heq => hne (hw.placeholder_inj hs heq)⟩, ?_⟩
      rw [Workspace.counterparts_settleAs, if_neg (Ne.symm hne), hj]
  placeholder_inj := by
    intro i j s hi hj
    rw [Workspace.placeholders_settleAs] at hi hj
    split at hi
    · simp at hi
    · split at hj
      · simp at hj
      · exact hw.placeholder_inj hi hj
  empty := by
    intro s hs
    obtain ⟨hs', hne⟩ := (hempty s).1 hs
    obtain ⟨j, hj⟩ := hw.empty hs'
    have hji : j ≠ index := fun heq => hne (heq ▸ hj)
    exact ⟨j, by rw [Workspace.placeholders_settleAs, if_neg hji, hj]⟩
  counterpart := by
    intro j s hs
    rw [Workspace.counterparts_settleAs] at hs
    split at hs
    · rename_i heq
      obtain rfl := heq
      obtain rfl := Option.some.inj hs
      exact hstands
    · obtain ⟨node, attributes, home, h⟩ := hw.counterpart hs
      exact ⟨node, attributes, home, h.grow hgrows⟩
  identity := by
    intro node texts s hs
    rcases hidentity hs with hs | ⟨rfl, hholds, attributes, hready, htexts⟩
    · obtain ⟨hholds, j, attributes, hready, htexts, hj⟩ := hw.identity hs
      exact ⟨hgrows.holds hholds, j, attributes, hready.grow hgrows, htexts, hgrows.counterpart hj⟩
    · refine ⟨hholds, index, attributes, hready.grow hgrows, htexts, ?_⟩
      rw [Workspace.counterparts_settleAs, if_pos rfl]
  filled := by
    intro s node hs
    rcases hfilled hs with hs | rfl
    · obtain ⟨j, hj⟩ := hw.filled hs
      exact ⟨j, hgrows.counterpart hj⟩
    · exact ⟨index, by rw [Workspace.counterparts_settleAs, if_pos rfl]⟩
  folds := hfolds

section Cases

variable {known slot : Ref}

/-- Reserving a placeholder keeps the invariant: there is one more empty slot. -/
theorem Sound.reserve (hw : d.Sound w) (hindex : index < d.old.size)
    (himage : w.image? index = none) : d.Sound { w with
      draft := { w.draft with slots := w.draft.slots.push none }
      placeholders := w.placeholders.insert index w.draft.nextRef } := by
  have hgrows := (Step.reserve hindex himage).grows hw
  obtain ⟨hc, hp⟩ := Workspace.image?_eq_none_iff.1 himage
  have hempty : ∀ s, ({ w.draft with slots := w.draft.slots.push none } : Draft).IsEmptyAt s ↔
      w.draft.IsEmptyAt s ∨ (s = w.draft.nextRef ∧ (none : Option Node) = none) := fun s =>
    Draft.isEmptyAt_push_iff rfl
  refine
    { serial := hw.serial, mapping := hw.mapping, alphabetize := hw.alphabetize
      stamps := hw.stamps, folds := hw.folds
      placeholder := fun {j s} hs => ?_, placeholder_inj := fun {i j s} hi hj => ?_
      empty := fun {s} hs => ?_, counterpart := fun {j s} hs => ?_
      identity := fun {node texts s} hs => ?_, filled := fun {s node} hs => ?_ }
  · rcases OrderedMap.eq_or_of_find?_insert hs with hs | ⟨rfl, rfl⟩
    · exact ⟨(hempty s).2 (.inl (hw.placeholder hs).1), (hw.placeholder hs).2⟩
    · exact ⟨(hempty _).2 (.inr ⟨rfl, rfl⟩), hc⟩
  · -- no earlier placeholder is the new slot
    have hfresh : ∀ {i}, w.placeholders.find? i ≠ some w.draft.nextRef := fun hi =>
      Draft.not_isEmptyAt_nextRef (hw.placeholder hi).1
    rcases OrderedMap.eq_or_of_find?_insert hi with hi' | ⟨rfl, rfl⟩
    · rcases OrderedMap.eq_or_of_find?_insert hj with hj' | ⟨rfl, rfl⟩
      · exact hw.placeholder_inj hi' hj'
      · exact absurd hi' hfresh
    · rcases OrderedMap.eq_or_of_find?_insert hj with hj' | ⟨rfl, -⟩
      · exact absurd hj' hfresh
      · rfl
  · rcases (hempty s).1 hs with hs | ⟨rfl, -⟩
    · obtain ⟨j, hj⟩ := hw.empty hs
      exact ⟨j, OrderedMap.find?_insert_of_find? hp hj⟩
    · exact ⟨index, by rw [OrderedMap.find?_insert, if_pos rfl]⟩
  · obtain ⟨node, attributes, home, h⟩ := hw.counterpart hs
    exact ⟨node, attributes, home, h.grow hgrows⟩
  · obtain ⟨hholds, j, attributes, hready, htexts, hj⟩ := hw.identity hs
    exact ⟨hgrows.holds hholds, j, attributes, hready.grow hgrows, htexts, hj⟩
  · rcases (Draft.holds_push_iff rfl).1 hs with hs | ⟨-, hs⟩
    · exact hw.filled hs
    · cases hs

/-- Finding that a node is known keeps the invariant: the counterpart is where it was stored. -/
theorem Sound.share {store : AttributeStore} (hw : d.Sound w)
    (hready : d.Ready w index node attributes)
    (hsettled : w.counterparts.find? index = none) (hplace : w.placeholders.find? index = none)
    (hid : w.draft.identities.find? (node, attributes.identityTexts) = some known)
    (hstore : w.draft.store.Writes known.index attributes store) :
    d.Sound (w.settleAs index known { w.draft with store }) := by
  have hgrows := (Step.share hready hsettled hplace hid hstore).grows hw
  refine hw.settleAs hgrows hstore.serial rfl rfl rfl (fun s => ?_) ?_ (fun h => .inl h)
    (fun h => .inl ?_) hw.folds
  · simp [Draft.IsEmptyAt, Draft.serial, hstore.serial, hplace]
  · exact ⟨node, attributes, known, hready.grow hgrows, hgrows.holds (hw.identity hid).1, .inl rfl,
      fun _ => hgrows.identity hid⟩
  · exact ⟨h.1.trans hstore.serial, h.2⟩

/-- Storing a new node keeps the invariant: its slot is filled from the start. -/
theorem Sound.store {store : AttributeStore} (hw : d.Sound w)
    (hready : d.Ready w index node attributes)
    (hsettled : w.counterparts.find? index = none) (hplace : w.placeholders.find? index = none)
    (hid : w.draft.identities.find? (node, attributes.identityTexts) = none)
    (hstore : w.draft.store.Writes w.draft.size attributes store) :
    d.Sound (w.settleAs index w.draft.nextRef { w.draft with
      slots := w.draft.slots.push (some node)
      identities := w.draft.identities.insert (node, attributes.identityTexts) w.draft.nextRef
      store }) := by
  have hgrows := (Step.store hready hsettled hplace hid hstore).grows hw
  have hholds : ∀ s n, ({ w.draft with
      slots := w.draft.slots.push (some node)
      identities := w.draft.identities.insert (node, attributes.identityTexts) w.draft.nextRef
      store } : Draft).Holds s n ↔
        w.draft.Holds s n ∨ (s = w.draft.nextRef ∧ some node = some n) := fun s n =>
    Draft.holds_push_iff hstore.serial
  have hnew := (hholds w.draft.nextRef node).2 (.inr ⟨rfl, rfl⟩)
  refine hw.settleAs hgrows hstore.serial rfl rfl rfl (fun s => ?_) ?_ (fun {n texts s} h => ?_)
    (fun {s n} h => ?_) hw.folds
  · rw [Draft.isEmptyAt_push_iff hstore.serial]
    simp [hplace]
  · refine ⟨node, attributes, _, hready.grow hgrows, hnew, .inl rfl, fun _ => ?_⟩
    rw [Workspace.draft_settleAs, OrderedMap.find?_insert, if_pos rfl]
  · rcases OrderedMap.eq_or_of_find?_insert h with h | ⟨heq, rfl⟩
    · exact .inl h
    · obtain ⟨rfl, rfl⟩ := Prod.mk.inj heq
      exact .inr ⟨rfl, hnew, attributes, hready, rfl⟩
  · exact ((hholds s n).1 h).imp_right And.left

/-- Folding a node into a known one keeps the invariant: its slot is an indirection from now on. -/
theorem Sound.fold {store : AttributeStore} (hw : d.Sound w)
    (hready : d.Ready w index node attributes)
    (hsettled : w.counterparts.find? index = none) (hplace : w.placeholders.find? index = some slot)
    (hfolds : d.plan.foldsCycles = true)
    (hid : w.draft.identities.find? (node, attributes.identityTexts) = some known)
    (hstore : w.draft.store.Writes known.index attributes store) :
    d.Sound (w.settleAs index slot { w.draft with
      slots := w.draft.slots.setIfInBounds slot.index (some (.indirection known))
      store
      forwarded := true }) := by
  have hgrows := (Step.fold hready hsettled hplace hfolds hid hstore).grows hw
  have hslot := (hw.placeholder hplace).1
  have hholds : ∀ s n, ({ w.draft with
      slots := w.draft.slots.setIfInBounds slot.index (some (.indirection known))
      store
      forwarded := true } : Draft).Holds s n ↔
        if s = slot then some (.indirection known) = some n else w.draft.Holds s n := fun s n =>
    Draft.holds_set_iff hstore.serial hslot.hasSlot
  refine hw.settleAs hgrows hstore.serial rfl rfl rfl (fun s => ?_) ?_ (fun h => .inl h)
    (fun {s n} h => ?_) (fun _ => hfolds)
  · rw [Draft.isEmptyAt_set_iff hstore.serial hslot.hasSlot, hplace]
    grind
  · exact ⟨node, attributes, known, hready.grow hgrows, hgrows.holds (hw.identity hid).1,
      .inr ⟨rfl, Draft.holds_set_self hstore.serial hslot⟩, fun _ => hgrows.identity hid⟩
  · have := (hholds s n).1 h
    grind

/-- Filling a placeholder keeps the invariant: the slot stops being empty and the node being
rebuilt. -/
theorem Sound.fill {store : AttributeStore} (hw : d.Sound w)
    (hready : d.Ready w index node attributes)
    (hsettled : w.counterparts.find? index = none) (hplace : w.placeholders.find? index = some slot)
    (hid : d.plan.foldsCycles = true →
      w.draft.identities.find? (node, attributes.identityTexts) = none)
    (hstore : w.draft.store.Writes slot.index attributes store) :
    d.Sound (w.settleAs index slot { w.draft with
      slots := w.draft.slots.setIfInBounds slot.index (some node)
      identities := if w.draft.identities.contains (node, attributes.identityTexts)
        then w.draft.identities
        else w.draft.identities.insert (node, attributes.identityTexts) slot
      store }) := by
  have hgrows := (Step.fill hready hsettled hplace hid hstore).grows hw
  have hslot := (hw.placeholder hplace).1
  have hholds : ∀ s n, ({ w.draft with
      slots := w.draft.slots.setIfInBounds slot.index (some node)
      identities := if w.draft.identities.contains (node, attributes.identityTexts)
        then w.draft.identities
        else w.draft.identities.insert (node, attributes.identityTexts) slot
      store } : Draft).Holds s n ↔
        if s = slot then some node = some n else w.draft.Holds s n := fun s n =>
    Draft.holds_set_iff hstore.serial hslot.hasSlot
  have hnew := (hholds slot node).2 (by rw [if_pos rfl])
  refine hw.settleAs hgrows hstore.serial rfl rfl rfl (fun s => ?_) ?_ (fun {n texts s} h => ?_)
    (fun {s n} h => ?_) hw.folds
  · rw [Draft.isEmptyAt_set_iff hstore.serial hslot.hasSlot, hplace]
    grind
  · refine ⟨node, attributes, slot, hready.grow hgrows, hnew, .inl rfl, fun hf => ?_⟩
    have hnot := OrderedMap.contains_eq_false_iff.2 (hid hf)
    simp only [Workspace.draft_settleAs, hnot, Bool.false_eq_true, if_false,
      OrderedMap.find?_insert, if_true]
  · split at h
    · exact .inl h
    · rcases OrderedMap.eq_or_of_find?_insert h with h | ⟨heq, rfl⟩
      · exact .inl h
      · obtain ⟨rfl, rfl⟩ := Prod.mk.inj heq
        exact .inr ⟨rfl, hnew, attributes, hready, rfl⟩
  · have := (hholds s n).1 h
    grind

end Cases

/-- **Every step keeps the invariant.** -/
theorem Sound.step (hw : d.Sound w) (h : d.Step w w') : d.Sound w' := by
  cases h with
  | reserve hindex himage => exact hw.reserve hindex himage
  | share hready hsettled hplace hid hstore => exact hw.share hready hsettled hplace hid hstore
  | store hready hsettled hplace hid hstore => exact hw.store hready hsettled hplace hid hstore
  | fold hready hsettled hplace hfolds hid hstore =>
    exact hw.fold hready hsettled hplace hfolds hid hstore
  | fill hready hsettled hplace hid hstore => exact hw.fill hready hsettled hplace hid hstore

/-! ### The invariant of all workspaces -/

theorem sound_workspace : d.Sound d.workspace where
  serial := rfl
  mapping := rfl
  alphabetize := rfl
  stamps := rfl
  placeholder := fun h => by simp [workspace, EmptyCollection.emptyCollection] at h
  placeholder_inj := fun h => by simp [workspace, EmptyCollection.emptyCollection] at h
  empty := fun h => by simpa [workspace, Draft.ofGeneration] using h.2
  counterpart := fun h => by simp [workspace, EmptyCollection.emptyCollection] at h
  identity := fun h => by
    simp [workspace, Draft.ofGeneration, EmptyCollection.emptyCollection] at h
  filled := fun h => by simpa [workspace, Draft.ofGeneration] using h.2
  folds := fun h => by simp [workspace, Draft.ofGeneration] at h

/-- **The invariant holds all through a rebuilding.** -/
theorem Grown.sound (h : d.Grown w) : d.Sound w := by
  induction h with
  | start => exact sound_workspace
  | step _ hstep ih => exact ih.step hstep
  | bindRoots _ roots rootAttributes ih =>
    -- no part of the invariant looks at the roots
    refine
      { serial := ih.serial, mapping := ih.mapping, alphabetize := ih.alphabetize
        stamps := ih.stamps, placeholder := ih.placeholder, placeholder_inj := ih.placeholder_inj
        empty := ih.empty, counterpart := fun h => ?_, identity := fun h => ?_
        filled := ih.filled, folds := ih.folds }
    · obtain ⟨node, attributes, home, hready, hholds, hleads, hknown⟩ := ih.counterpart h
      exact ⟨node, attributes, home,
        ⟨⟨hready.met, hready.node, hready.attributes⟩, hholds, hleads, hknown⟩⟩
    · obtain ⟨hholds, index, attributes, hready, hrest⟩ := ih.identity h
      exact ⟨hholds, index, attributes, ⟨hready.met, hready.node, hready.attributes⟩, hrest⟩

/-- The kinds of all attributes come from the old generation. -/
theorem Grown.among {P : AnyKind → Prop}
    (hattributes : ∀ {index attributes}, d.attributes (d.old.refAt index) = .ok attributes →
      attributes.Among P) (h : d.Grown w) : w.draft.store.Among P := by
  induction h with
  | start => exact AttributeStore.among_empty
  | step _ hstep ih =>
    cases hstep with
    | reserve => exact ih
    | share hready _ _ _ hstore => exact hstore.among ih (hattributes hready.attributes)
    | store hready _ _ _ hstore => exact hstore.among ih (hattributes hready.attributes)
    | fold hready _ _ _ _ hstore => exact hstore.among ih (hattributes hready.attributes)
    | fill hready _ _ _ hstore => exact hstore.among ih (hattributes hready.attributes)
  | bindRoots _ _ _ ih => exact ih

/-! ### Runs of steps -/

/-- Any number of steps. -/
def Steps (d : Derivation) : Workspace → Workspace → Prop := Relation.ReflTransGen d.Step

theorem Grown.steps (hw : d.Grown w) (h : d.Steps w w') : d.Grown w' := by
  induction h with
  | refl => exact hw
  | tail _ hstep ih => exact ih.step hstep

theorem Steps.grows (hw : d.Grown w) (h : d.Steps w w') : w.Grows w' := by
  induction h with
  | refl => exact .refl w
  | tail hsteps hstep ih => exact ih.trans (hstep.grows (hw.steps hsteps).sound)

theorem Step.sameRoots (h : d.Step w w') : w.SameRoots w' := by
  cases h with
  | reserve => exact ⟨rfl, rfl, rfl, rfl, rfl⟩
  | share _ _ _ _ hstore => exact ⟨rfl, hstore.roots, rfl, rfl, rfl⟩
  | store _ _ _ _ hstore => exact ⟨rfl, hstore.roots, rfl, rfl, rfl⟩
  | fold _ _ _ _ _ hstore => exact ⟨rfl, hstore.roots, rfl, rfl, rfl⟩
  | fill _ _ _ _ hstore => exact ⟨rfl, hstore.roots, rfl, rfl, rfl⟩

theorem Steps.sameRoots (h : d.Steps w w') : w.SameRoots w' := by
  induction h with
  | refl => exact ⟨rfl, rfl, rfl, rfl, rfl⟩
  | tail _ hstep ih =>
    have h := hstep.sameRoots
    exact ⟨h.roots.trans ih.roots, h.rootAttributes.trans ih.rootAttributes,
      h.options.trans ih.options, h.lossDeclared.trans ih.lossDeclared, h.journal.trans ih.journal⟩

end Derivation

end SchemaGraph
