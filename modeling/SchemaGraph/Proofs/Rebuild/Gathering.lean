import SchemaGraph.Proofs.Rebuild.Derived

/-!
# Where attributes go

When an old node is settled, its attributes are merged into those of the place where it is stored:
its counterpart, or the node behind it if the counterpart has become an indirection. A node is
stored in one place only (`SchemaGraph.Derivation.Lodged.unique`), although its counterpart alone
does not tell which: an indirection may just as well be what an old indirection was rebuilt to.

So the attributes in a place are those of the old nodes that are stored there, merged in the order
in which these were settled, and nothing else (`SchemaGraph.Derivation.Grown.gathered`). What the
values of one kind list follows if the kind unites its values
(`SchemaGraph.Derivation.Derives.lists_iff`), and markers are a case of it: none is lost if
every old node that can be reached is rebuilt, or has its attributes taken in by one that is
(`SchemaGraph.Derivation.Derives.hasMarker`).
-/

namespace SchemaGraph

/-- A node is substituted by one that stands for itself exactly if it is that one, or is among its
sources. -/
theorem Plan.target_eq_iff {p : Plan} {r s : Ref} (hr : p.target r = r) :
    p.target s = r ↔ s = r ∨ s ∈ p.sources r := by
  constructor
  · rintro rfl
    exact mem_sources_target
  · rintro (rfl | hs)
    · exact hr
    · cases p with
      | replace _ => simp [sources] at hs
      | substitute map =>
        obtain ⟨⟨t, u⟩, hentry, rfl⟩ := List.mem_map.1 hs
        obtain ⟨hmem, heq⟩ := List.mem_filter.1 hentry
        obtain rfl : u = r := of_decide_eq_true heq
        rw [target, OrderedMap.find?_eq_some_iff.2 hmem, Option.getD_some]

/-- The reachable nodes carry the marker. -/
def Generation.HasMarker (g : Generation) (marker : Nat) : Prop :=
  ∃ r, g.Reaches r ∧ (g.store.atIndex r.index).Carries marker

namespace Derivation

variable {d : Derivation} {w w' : Workspace} {new : Generation} {index : Nat}
  {attributes attributes' : Attributes} {r s home home' : Ref}

/-! ### Places -/

/-- The old node at `index` is stored at `home`, where its attributes went. -/
def Lodged (d : Derivation) (w : Workspace) (index : Nat) (attributes : Attributes) (home : Ref) :
    Prop :=
  ∃ r node, w.counterparts.find? index = some r ∧ d.Stands w index r node attributes home

theorem Lodged.grow (h : d.Lodged w index attributes home) (hgrows : w.Grows w') :
    d.Lodged w' index attributes home := by
  obtain ⟨r, node, hr, hstands⟩ := h
  exact ⟨r, node, hgrows.counterpart hr, hstands.grow hgrows⟩

/-- **An old node is stored in one place**: where its identity is known, or at its counterpart. -/
theorem Lodged.unique (hw : d.Sound w) (h : d.Lodged w index attributes home)
    (h' : d.Lodged w index attributes' home') : attributes = attributes' ∧ home = home' := by
  obtain ⟨r, node, hr, hstands⟩ := h
  obtain ⟨r', node', hr', hstands'⟩ := h'
  obtain rfl : r = r' := Option.some.inj (hr.symm.trans hr')
  obtain rfl : attributes = attributes' :=
    Except.ok.inj (hstands.ready.attributes.symm.trans hstands'.ready.attributes)
  refine ⟨rfl, ?_⟩
  cases hfolds : d.plan.foldsCycles with
  | true =>
    obtain ⟨old, hold, -, rfl⟩ := hstands.ready.node
    obtain ⟨old', hold', -, rfl⟩ := hstands'.ready.node
    obtain rfl := Option.some.inj (hold.symm.trans hold')
    exact Option.some.inj ((hstands.known hfolds).symm.trans (hstands'.known hfolds))
  | false =>
    -- no slot is forwarded, so counterparts are places
    have hplace : ∀ {home}, r = home ∨ (w.draft.forwarded = true ∧
        w.draft.Holds r (.indirection home)) → r = home := fun hleads =>
      hleads.resolve_right fun h => by simp [hw.folds h.1] at hfolds
    exact (hplace hstands.leads).symm.trans (hplace hstands'.leads)

/-- What was settled stays where it is. -/
theorem lodged_iff_of_grows (hw : d.Sound w) (hw' : d.Sound w') (hgrows : w.Grows w')
    (hsettled : w.counterparts.find? index = some r) :
    d.Lodged w' index attributes home ↔ d.Lodged w index attributes home := by
  refine ⟨fun h => ?_, fun h => h.grow hgrows⟩
  obtain ⟨node, attributes', home', hstands⟩ := hw.counterpart hsettled
  have hlodged : d.Lodged w index attributes' home' := ⟨r, node, hsettled, hstands⟩
  obtain ⟨rfl, rfl⟩ := h.unique hw' (hlodged.grow hgrows)
  exact hlodged

/-- **What a step does to counterparts and attributes**: nothing, or it settles an old node and
merges its attributes into those of its place. -/
theorem Step.settles (hw : d.Sound w) (h : d.Step w w') :
    (w'.counterparts = w.counterparts ∧ w'.draft.store = w.draft.store) ∨
      ∃ index r node attributes home draft, w' = w.settleAs index r draft ∧
        w.counterparts.find? index = none ∧ d.Stands w' index r node attributes home ∧
        w.draft.store.Writes home.index attributes draft.store := by
  have hgrows := h.grows hw
  cases h with
  | reserve => exact .inl ⟨rfl, rfl⟩
  | @share index node attributes known store hready hsettled hplace hid hstore =>
    refine .inr ⟨index, known, node, attributes, known, _, rfl, hsettled, ?_, hstore⟩
    exact ⟨hready.grow hgrows, hgrows.holds (hw.identity hid).1, .inl rfl,
      fun _ => hgrows.identity hid⟩
  | @store index node attributes store hready hsettled hplace hid hstore =>
    refine .inr ⟨index, _, node, attributes, w.draft.nextRef, _, rfl, hsettled, ?_, hstore⟩
    refine ⟨hready.grow hgrows, ?_, .inl rfl, fun _ => ?_⟩
    · exact (Draft.holds_push_iff hstore.serial).2 (.inr ⟨rfl, rfl⟩)
    · rw [Workspace.draft_settleAs, OrderedMap.find?_insert, if_pos rfl]
  | @fold index node attributes known slot store hready hsettled hplace hfolds hid hstore =>
    refine .inr ⟨index, slot, node, attributes, known, _, rfl, hsettled, ?_, hstore⟩
    exact ⟨hready.grow hgrows, hgrows.holds (hw.identity hid).1,
      .inr ⟨rfl, Draft.holds_set_self hstore.serial (hw.placeholder hplace).1⟩,
      fun _ => hgrows.identity hid⟩
  | @fill index node attributes slot store hready hsettled hplace hid hstore =>
    refine .inr ⟨index, slot, node, attributes, slot, _, rfl, hsettled, ?_, hstore⟩
    refine ⟨hready.grow hgrows, Draft.holds_set_self hstore.serial (hw.placeholder hplace).1,
      .inl rfl, fun hfolds => ?_⟩
    have hnot := OrderedMap.contains_eq_false_iff.2 (hid hfolds)
    simp only [Workspace.draft_settleAs, hnot, Bool.false_eq_true, if_false,
      OrderedMap.find?_insert, if_true]

/-! ### The attributes in a place -/

/-- The attributes in every place are those of the old nodes that are stored there, merged. -/
def Gathered (d : Derivation) (w : Workspace) : Prop :=
  ∀ place, ∃ sets, Attributes.combineAll sets = .ok (w.draft.store.atIndex place) ∧
    ∀ attributes, attributes ∈ sets ↔
      ∃ index home, d.Lodged w index attributes home ∧ home.index = place

section Settled

variable {node : Node} {draft : Draft} (hw : d.Sound w)
  (hw' : d.Sound (w.settleAs index r draft)) (hgrows : w.Grows (w.settleAs index r draft))
  (hstands : d.Stands (w.settleAs index r draft) index r node attributes home)

include hw hw' hgrows hstands

/-- When one more old node is settled, the others live where they did. -/
theorem lodged_settleAs_iff {i : Nat} {a : Attributes} {t : Ref} :
    d.Lodged (w.settleAs index r draft) i a t ↔
      (i = index ∧ a = attributes ∧ t = home) ∨ d.Lodged w i a t := by
  have hhere : d.Lodged (w.settleAs index r draft) index attributes home := by
    refine ⟨r, node, ?_, hstands⟩
    rw [Workspace.counterparts_settleAs, if_pos rfl]
  constructor
  · intro hi
    by_cases heq : index = i
    · subst heq
      obtain ⟨rfl, rfl⟩ := hi.unique hw' hhere
      exact .inl ⟨rfl, rfl, rfl⟩
    · obtain ⟨s, -, hs, -⟩ := id hi
      rw [Workspace.counterparts_settleAs, if_neg heq] at hs
      exact .inr ((lodged_iff_of_grows hw hw' hgrows hs).1 hi)
  · rintro (⟨rfl, rfl, rfl⟩ | hi)
    · exact hhere
    · exact hi.grow hgrows

/-- Settling one more old node adds its attributes to those in its place. -/
theorem Gathered.settleAs (h : d.Gathered w)
    (hwrites : w.draft.store.Writes home.index attributes draft.store) :
    d.Gathered (w.settleAs index r draft) := by
  intro place
  obtain ⟨sets, hsets, hmem⟩ := h place
  simp only [lodged_settleAs_iff hw hw' hgrows hstands]
  by_cases hplace : place = home.index
  · subst hplace
    refine ⟨sets ++ [attributes], ?_, fun a => ?_⟩
    · rw [Attributes.combineAll_concat, hsets, ok_bind]
      exact hwrites.here
    · rw [List.mem_append, List.mem_singleton, hmem]
      constructor
      · rintro (⟨i, t, hi, ht⟩ | rfl)
        · exact ⟨i, t, .inr hi, ht⟩
        · exact ⟨index, home, .inl ⟨rfl, rfl, rfl⟩, rfl⟩
      · rintro ⟨i, t, ⟨-, rfl, -⟩ | hi, ht⟩
        · exact .inr rfl
        · exact .inl ⟨i, t, hi, ht⟩
  · refine ⟨sets, ?_, fun a => ?_⟩
    · rw [hsets, Workspace.draft_settleAs, hwrites.elsewhere _ hplace]
    · rw [hmem]
      constructor
      · rintro ⟨i, t, hi, ht⟩
        exact ⟨i, t, .inr hi, ht⟩
      · rintro ⟨i, t, ⟨-, -, rfl⟩ | hi, ht⟩
        · exact absurd ht.symm hplace
        · exact ⟨i, t, hi, ht⟩

end Settled

/-- **Nothing is in a place but the attributes of the old nodes that are stored there.** -/
theorem Grown.gathered (hw : d.Grown w) : d.Gathered w := by
  induction hw with
  | start =>
    refine fun place => ⟨[], rfl, fun attributes => iff_of_false (by simp) ?_⟩
    rintro ⟨index, home, ⟨r, node, hr, -⟩, -⟩
    simp [workspace, EmptyCollection.emptyCollection] at hr
  | @step w w' hw h ih =>
    have hsound := hw.sound
    have hsound' := (hw.step h).sound
    have hgrows := h.grows hsound
    rcases h.settles hsound with ⟨hcounterparts, hstore⟩ |
      ⟨index, r, node, attributes, home, draft, rfl, hsettled, hstands, hwrites⟩
    · intro place
      obtain ⟨sets, hsets, hmem⟩ := ih place
      refine ⟨sets, hstore ▸ hsets, fun a => ?_⟩
      rw [hmem]
      constructor
      · rintro ⟨i, t, hi, ht⟩
        exact ⟨i, t, hi.grow hgrows, ht⟩
      · rintro ⟨i, t, hi, ht⟩
        obtain ⟨s, -, hs, -⟩ := id hi
        rw [hcounterparts] at hs
        exact ⟨i, t, (lodged_iff_of_grows hsound hsound' hgrows hs).1 hi, ht⟩
    · exact ih.settleAs hsound hsound' hgrows hstands hwrites
  | bindRoots _ _ _ ih =>
    intro place
    obtain ⟨sets, hsets, hmem⟩ := ih place
    refine ⟨sets, hsets, fun a => ?_⟩
    rw [hmem]
    -- nothing that is said of a place looks at the roots
    constructor
    · rintro ⟨i, t, ⟨r, node, hr, hready, hholds, hleads, hknown⟩, ht⟩
      exact ⟨i, t, ⟨r, node, hr,
        ⟨hready.met, hready.node, hready.attributes⟩, hholds, hleads, hknown⟩, ht⟩
    · rintro ⟨i, t, ⟨r, node, hr, hready, hholds, hleads, hknown⟩, ht⟩
      exact ⟨i, t, ⟨r, node, hr,
        ⟨hready.met, hready.node, hready.attributes⟩, hholds, hleads, hknown⟩, ht⟩

/-! ### Derived generations -/

/-- The old node `r` is stored at `home`. -/
def LivesAt (d : Derivation) (w : Workspace) (r home : Ref) : Prop :=
  ∃ attributes, d.Lodged w r.index attributes home

namespace Derives

variable (h : d.Derives w new)

include h

theorem exists_livesAt (hr : d.old.Visits d.plan.target r) : ∃ home, d.LivesAt w r home := by
  obtain ⟨old, attributes, home, -, -, hstands⟩ := h.stands hr
  exact ⟨home, attributes, _, _, h.counterpart_imageOf hr, hstands⟩

/-- **The place of a visited node** is reached, has the node with its children replaced by their
images, and is its image or behind it. -/
theorem node_of_livesAt (hr : d.old.Visits d.plan.target r) (hhome : d.LivesAt w r home) :
    ∃ old, d.old.node? r.index = some old ∧ new.Reaches home ∧
      new.node? home.index =
        some ((old.mapChildren (d.imageOf w)).canonical d.mapping d.alphabetize) ∧
      (d.imageOf w r = home ∨
        w.draft.forwarded = true ∧ new.node? (d.imageOf w r).index = some (.indirection home)) := by
  obtain ⟨attributes, s, node, hs, hstands⟩ := hhome
  obtain rfl := Option.some.inj (hs.symm.trans (h.counterpart_imageOf hr))
  obtain ⟨old, hold, -, rfl⟩ := hstands.ready.node
  have hleads : d.imageOf w r = home ∨
      w.draft.forwarded = true ∧ new.node? (d.imageOf w r).index = some (.indirection home) :=
    hstands.leads.imp_right (And.imp_right fun hleads => (h.holds_iff.1 hleads).2)
  refine ⟨old, hold, ?_, (h.holds_iff.1 hstands.holds).2, hleads⟩
  rcases hleads with heq | ⟨-, hleads⟩
  · exact heq ▸ h.reaches hr
  · exact (h.reaches hr).child hleads (by simp)

/-- If no slot was forwarded, nodes live at their images. -/
theorem livesAt_iff_of_direct (hdirect : w.draft.forwarded = false)
    (hr : d.old.Visits d.plan.target r) : d.LivesAt w r home ↔ d.imageOf w r = home := by
  have hplace : ∀ {s}, d.LivesAt w r s → d.imageOf w r = s := fun hs => by
    obtain ⟨-, -, -, -, hleads⟩ := h.node_of_livesAt hr hs
    exact hleads.resolve_right fun hforwarded => by simp [hdirect] at hforwarded
  refine ⟨hplace, ?_⟩
  rintro rfl
  obtain ⟨s, hs⟩ := h.exists_livesAt hr
  exact (hplace hs) ▸ hs

end Derives

section Lists

variable {t : ValueType} {E : Type} {kind : AttributeKind t} {elements : t.Carrier → Set E} {x : E}

/-- What the attributes of a node list are what it lists itself and what its sources list. -/
theorem lists_attributes_iff (hplan : d.plan.fault? d.old.serial = none)
    (hunites : kind.Unites elements) (hold : d.old.store.Among (Sole kind))
    (h : d.attributes r = .ok attributes) (hr : d.plan.target r = r) :
    attributes.Among (Sole kind) ∧ (attributes.Lists kind elements x ↔
      ∃ s, d.plan.target s = r ∧ (d.old.store.atIndex s.index).Lists kind elements x) := by
  have hfold := (attributes_eq hplan r).symm.trans h
  obtain ⟨hamong, hiff⟩ := Attributes.lists_foldlM_combine hunites (x := x) (hold r.index)
    (fun a ha => by
      obtain ⟨s, -, rfl⟩ := List.mem_map.1 ha
      exact hold s.index) hfold
  refine ⟨hamong, hiff.trans ?_⟩
  simp only [Plan.target_eq_iff hr, List.mem_map, exists_exists_and_eq_and, or_and_right, exists_or,
    exists_eq_left]

/-- **What the values in a place list** is what the old nodes list that live there, or whose
substitutes do. -/
theorem Derives.lists_iff (h : d.Derives w new) (hunites : kind.Unites elements)
    (hold : d.old.store.Among (Sole kind)) (hs : s.serial = new.serial) :
    (new.store.atIndex s.index).Lists kind elements x ↔
      ∃ r, d.old.Visits d.plan.target (d.plan.target r) ∧ d.LivesAt w (d.plan.target r) s ∧
        (d.old.store.atIndex r.index).Lists kind elements x := by
  have hsound := h.finished.grown.sound
  obtain ⟨sets, hsets, hmem⟩ := h.finished.grown.gathered s.index
  -- what is known of a node that lives in this place
  have hlodged : ∀ {index a home}, d.Lodged w index a home → home.index = s.index →
      d.old.Visits d.plan.target (d.old.refAt index) ∧ home = s ∧
        d.attributes (d.old.refAt index) = .ok a := by
    rintro index a home ⟨r, node, -, hstands⟩ hindex
    have hserial : home.serial = s.serial := by
      rw [hs, h.serial, hstands.holds.1, hsound.serial]
    exact ⟨hstands.ready.met, Ref.ext hserial hindex, hstands.ready.attributes⟩
  have hlists : ∀ {r a}, d.old.Visits d.plan.target r → d.attributes r = .ok a →
      a.Among (Sole kind) ∧ (a.Lists kind elements x ↔
        ∃ t, d.plan.target t = r ∧ (d.old.store.atIndex t.index).Lists kind elements x) :=
    fun hr ha => lists_attributes_iff h.plan hunites hold ha (Derives.target_of_visits h.plan hr)
  have hamong : ∀ a ∈ sets, Attributes.Among (Sole kind) a := by
    intro a ha
    obtain ⟨index, home, hhome, hindex⟩ := (hmem a).1 ha
    obtain ⟨hmet, -, hattributes⟩ := hlodged hhome hindex
    exact (hlists hmet hattributes).1
  have hempty : Attributes.Among (Sole kind) Attributes.empty := fun _ ha => by cases ha
  have hall := (Attributes.lists_foldlM_combine hunites (x := x) hempty hamong hsets).2
  rw [h.store, hall]
  constructor
  · rintro (⟨v, hv, -⟩ | ⟨a, ha, hx⟩)
    · cases hv
    · obtain ⟨index, home, hhome, hindex⟩ := (hmem a).1 ha
      obtain ⟨hmet, rfl, hattributes⟩ := hlodged hhome hindex
      obtain ⟨t, ht, hx⟩ := (hlists hmet hattributes).2.1 hx
      rw [← ht] at hmet
      refine ⟨t, hmet, ⟨a, ?_⟩, hx⟩
      rw [ht]
      exact hhome
  · rintro ⟨r, hmet, ⟨a, hhome⟩, hx⟩
    have hattributes := (hlodged hhome rfl).2.2
    rw [← (h.owns_of_visits hmet).eq_refAt] at hattributes
    exact .inr ⟨a, (hmem a).2 ⟨_, s, hhome, rfl⟩, (hlists hmet hattributes).2.2 ⟨r, rfl, hx⟩⟩

end Lists

/-- **Markers survive a rebuilding** in which every node that can be reached is rebuilt, or has
its attributes taken in by one that is. -/
theorem Derives.hasMarker {P : AnyKind → Prop} {marker : Nat} (h : d.Derives w new)
    (hP : UnitesMarkers P) (hold : d.old.store.Among P)
    (hvisits : ∀ s, d.old.Reaches s → d.old.Visits d.plan.target (d.plan.target s))
    (hmarker : d.old.HasMarker marker) : new.HasMarker marker := by
  obtain ⟨s, hs, hmarker⟩ := hmarker
  have hr := hvisits s hs
  obtain ⟨home, hhome⟩ := h.exists_livesAt hr
  obtain ⟨-, -, hreach, -⟩ := h.node_of_livesAt hr hhome
  have hsole : d.old.store.Among (Sole .provenance) := fun index a ha => hP _ (hold index a ha)
  exact ⟨home, hreach, (h.lists_iff AttributeKind.unites_own.2.2 hsole hreach.owns.1).2
    ⟨s, hr, hhome, hmarker⟩⟩

end Derivation

end SchemaGraph
