import SchemaGraph.Proofs.Outcome
import SchemaGraph.Proofs.Rebuild.Sound

/-!
# A whole rebuilding

The recursion of a rebuilding without groups, followed once: visiting a node takes steps
(`SchemaGraph.Derivation.Step`) until the node has an image (`SchemaGraph.Derivation.visit_ends`),
and a whole run takes steps and binds the roots until every root has its image and no placeholder
is left (`SchemaGraph.Derivation.run_ends`). Everything else about the result is read off the
steps.

The bound on the recursion is never reached. The nodes on the path from the root are distinct,
so the path is no longer than the old generation has nodes, and each level of the recursion makes
it longer.
-/

namespace SchemaGraph

/-! ### Plans that fit -/

namespace Plan

variable {p : Plan} {serial : Nat} {r s : Ref}

theorem of_substitute {map : OrderedMap Ref Ref} (h : (substitute map).fault? serial = none)
    (hfind : map.find? r = some s) :
    r.serial = serial ∧ s.serial = serial ∧ map.find? s = none := by
  have hentry := List.findSome?_eq_none_iff.1 h (r, s) (OrderedMap.find?_eq_some_iff.1 hfind)
  rw [entryFault?] at hentry
  grind [OrderedMap.contains_eq_false_iff]

/-- What stands for a node of the generation is one itself, as far as its serial number says. -/
theorem serial_target (h : p.fault? serial = none) (hr : r.serial = serial) :
    (p.target r).serial = serial := by
  cases p with
  | replace _ => exact hr
  | substitute map =>
    rw [target]
    cases hfind : map.find? r with
    | none => exact hr
    | some s => exact (of_substitute h hfind).2.1

/-- What stands for a node is not substituted again. -/
theorem target_target (h : p.fault? serial = none) : p.target (p.target r) = p.target r := by
  cases p with
  | replace _ => rfl
  | substitute map =>
    simp only [target]
    cases hfind : map.find? r with
    | none => simp [hfind]
    | some s => simp [(of_substitute h hfind).2.2]

theorem serial_eq_of_mem_sources (h : p.fault? serial = none) (hs : s ∈ p.sources r) :
    s.serial = serial := by
  cases p with
  | replace _ => simp [sources] at hs
  | substitute map =>
    obtain ⟨e, he, rfl⟩ := List.mem_map.1 hs
    exact (of_substitute h (OrderedMap.find?_eq_some_iff.2 (List.mem_filter.1 he).1)).1

/-- A node stands for itself, or is among those that its substitute stands for. -/
theorem mem_sources_target : s = p.target s ∨ s ∈ p.sources (p.target s) := by
  cases p with
  | replace _ => exact .inl rfl
  | substitute map =>
    rcases Option.eq_none_or_eq_some (map.find? s) with hnone | ⟨t, ht⟩
    · left
      rw [target, hnone, Option.getD_none]
    · right
      have htarget : (substitute map).target s = t := by rw [target, ht, Option.getD_some]
      rw [htarget]
      refine List.mem_map.2 ⟨(s, t), List.mem_filter.2 ⟨?_, by simp⟩, rfl⟩
      exact OrderedMap.find?_eq_some_iff.1 ht

end Plan

namespace Derivation

open Rebuild

/-- Nothing can go wrong: the plan fits the old generation and stays inside it, and the kinds of
attributes give every name one type. -/
structure Faultless (d : Derivation) (P : AnyKind → Prop) : Prop where
  plan : d.plan.fault? d.old.serial = none
  inRange : ∀ r, d.old.Owns r → d.old.Owns (d.plan.target r)
  types : OneType P

variable {d : Derivation} {P : AnyKind → Prop} {w w' : Workspace} {path : List Nat} {r : Ref}

/-! ### Settling one node -/

section Settle

variable {old : Ref} {node : Node} {attributes : Attributes}

/-- How a node is stored: behind its placeholder, if it has one. -/
def storing (d : Derivation) (placeholder : Option Ref) (node : Node) (attributes : Attributes) :
    Build Ref :=
  match placeholder with
  | none => Build.intern node attributes none
  | some slot =>
    if d.plan.foldsCycles then Build.intern node attributes (some slot)
    else do
      Build.define slot node attributes
      return slot

theorem storing_none : d.storing none node attributes = Build.intern node attributes none := rfl

theorem storing_of_folds {slot : Ref} (h : d.plan.foldsCycles = true) :
    d.storing (some slot) node attributes = Build.intern node attributes (some slot) :=
  if_pos h

theorem storing_of_not_folds {slot : Ref} (h : d.plan.foldsCycles = false) :
    d.storing (some slot) node attributes = (do
      Build.define slot node attributes
      return slot) :=
  if_neg (by simp [h])

theorem settle_of_error {f : Fault} (h : d.attributes old = .error f) :
    d.settle old node w = .error f := by
  rw [settle]
  rw [h]
  rfl

theorem build_setCounterpart_eq {action : Build Ref} {index : Nat} :
    (do
      let new ← build action
      setCounterpart index new
      return new : Rebuild Ref) { w with placeholders := w.placeholders.erase index } =
      (action w.draft).map fun out => (out.1, w.settleAs index out.1 out.2) := by
  change action w.draft >>= _ >>= _ = _
  cases action w.draft <;> rfl

/-- Settling a node stores it and makes what it gets for it the counterpart. -/
theorem settle_of_ok (h : d.attributes old = .ok attributes) :
    d.settle old node w =
      (d.storing (w.placeholders.find? old.index) node attributes w.draft).map fun out =>
        (out.1, w.settleAs old.index out.1 out.2) := by
  have htake : takePlaceholder old.index w =
      .ok (w.placeholders.find? old.index,
        { w with placeholders := w.placeholders.erase old.index }) := rfl
  rw [settle]
  rw [h, bind_eq (a := attributes) (v := w) rfl, bind_eq htake]
  unfold storing
  cases w.placeholders.find? old.index with
  | none => exact build_setCounterpart_eq
  | some slot =>
    cases d.plan.foldsCycles with
    | true => exact build_setCounterpart_eq
    | false =>
      change (build (Build.define slot node attributes) >>= fun _ => _) _ =
        Except.map _ (Build.define slot node attributes w.draft >>= _)
      change Build.define slot node attributes w.draft >>= _ >>= _ = _
      cases Build.define slot node attributes w.draft <;> rfl

end Settle

/-! ### The path from the root -/

/-- What holds while the nodes on a path are being rebuilt: they have no counterparts, and every
placeholder is for one of them. -/
structure OnPath (d : Derivation) (path : List Nat) (w : Workspace) : Prop where
  nodup : path.Nodup
  inRange : ∀ index ∈ path, index < d.old.size
  unsettled : ∀ index ∈ path, w.counterparts.find? index = none
  placeholder : ∀ {index s}, w.placeholders.find? index = some s → index ∈ path

/-- The path has no room for more nodes than there are. -/
theorem OnPath.length_le (h : d.OnPath path w) : path.length ≤ d.old.size := by
  have hsub : path ⊆ List.range d.old.size := fun index hindex =>
    List.mem_range.2 (h.inRange index hindex)
  simpa using h.nodup.length_le_of_subset hsub

theorem OnPath.cons {index : Nat} (h : d.OnPath path w) (hnot : index ∉ path)
    (hindex : index < d.old.size) (hsettled : w.counterparts.find? index = none) :
    d.OnPath (index :: path) w where
  nodup := List.nodup_cons.2 ⟨hnot, h.nodup⟩
  inRange := List.forall_mem_cons.2 ⟨hindex, h.inRange⟩
  unsettled := List.forall_mem_cons.2 ⟨hsettled, h.unsettled⟩
  placeholder := fun hs => List.mem_cons_of_mem _ (h.placeholder hs)

/-- Settling the last node of a path takes it off the path. -/
theorem OnPath.settleAs {index : Nat} {draft : Draft} (h : d.OnPath (index :: path) w) :
    d.OnPath path (w.settleAs index r draft) where
  nodup := (List.nodup_cons.1 h.nodup).2
  inRange := fun j hj => h.inRange j (List.mem_cons_of_mem _ hj)
  unsettled := by
    intro j hj
    have hne : index ≠ j := fun heq => (List.nodup_cons.1 h.nodup).1 (heq ▸ hj)
    rw [Workspace.counterparts_settleAs, if_neg hne]
    exact h.unsettled j (List.mem_cons_of_mem _ hj)
  placeholder := by
    intro j s hs
    rw [Workspace.placeholders_settleAs] at hs
    split at hs
    · simp at hs
    · rename_i hne
      exact (List.mem_cons.1 (h.placeholder hs)).resolve_left hne

/-- A node on the path is given a placeholder, if it has none yet. -/
theorem placeholder_ends {bad : Fault → Prop} {index : Nat} (hpath : d.OnPath path w)
    (hmem : index ∈ path) :
    Ends (placeholder index w) bad fun out =>
      d.Steps w out.2 ∧ d.OnPath path out.2 ∧ out.2.image? index = some out.1 := by
  have hsettled := hpath.unsettled index hmem
  rw [placeholder]
  rw [bind_eq (a := w) (v := w) rfl]
  cases hplace : w.placeholders.find? index with
  | some slot => exact ⟨.refl, hpath, Workspace.image?_of_placeholder hsettled hplace⟩
  | none =>
    have hstep := Step.reserve (d := d) (w := w) (hpath.inRange index hmem)
      (Workspace.image?_eq_none_iff.2 ⟨hsettled, hplace⟩)
    refine ⟨.single hstep, ⟨hpath.nodup, hpath.inRange, hpath.unsettled, fun {j s} hs => ?_⟩, ?_⟩
    · change (w.placeholders.insert index _).find? j = some s at hs
      rw [OrderedMap.find?_insert] at hs
      split at hs
      · rename_i heq
        exact heq ▸ hmem
      · exact hpath.placeholder hs
    · refine Workspace.image?_of_placeholder hsettled ?_
      change (w.placeholders.insert index _).find? index = _
      rw [OrderedMap.find?_insert, if_pos rfl]

/-- **A node that is ready is stored in one step**: which one depends on whether it has a
placeholder, and whether it is known. -/
theorem storing_ends {bad : Fault → Prop} {index : Nat} {node n : Node} {attributes : Attributes}
    (hsound : d.Sound w) (hready : d.Ready w index n attributes)
    (hsettled : w.counterparts.find? index = none) (hcanonical : w.draft.canonical node = .ok n)
    (hadd : ∀ {s : Ref}, s.serial = w.draft.serial → Ends (w.draft.store.add s attributes) bad
      fun store => w.draft.store.Writes s.index attributes store) :
    Ends (d.storing (w.placeholders.find? index) node attributes w.draft) bad fun out =>
      d.Step w (w.settleAs index out.1 out.2) := by
  cases hplace : w.placeholders.find? index with
  | none =>
    rw [storing_none]
    cases hid : w.draft.identities.find? (n, attributes.identityTexts) with
    | none =>
      rw [Build.intern_of_new hcanonical hid hsound.stamps]
      refine ((hadd rfl).mono fun store hstore => ?_).map
      exact .store hready hsettled hplace hid hstore
    | some known =>
      have hknown := (hsound.identity hid).1.hasSlot.1
      rw [Build.intern_of_known hcanonical hid]
      refine ((hadd hknown).mono fun store hstore => ?_).map
      exact .share hready hsettled hplace hid hstore
  | some slot =>
    have hslot := (hsound.placeholder hplace).1
    cases hfolds : d.plan.foldsCycles with
    | true =>
      rw [storing_of_folds hfolds]
      cases hid : w.draft.identities.find? (n, attributes.identityTexts) with
      | none =>
        rw [Build.intern_forwarding_of_new hcanonical hid hsound.stamps hslot]
        refine ((hadd hslot.1).mono fun store hstore => ?_).map
        have hstep := Step.fill hready hsettled hplace (fun _ => hid) hstore
        rw [OrderedMap.contains_eq_false_iff.2 hid] at hstep
        exact hstep
      | some known =>
        have hknown := (hsound.identity hid).1.hasSlot.1
        rw [Build.intern_forwarding_of_known hcanonical hid hslot]
        refine ((hadd hknown).mono fun store hstore => ?_).map
        exact .fold hready hsettled hplace hfolds hid hstore
    | false =>
      -- the node is put behind its placeholder without being looked for
      rw [storing_of_not_folds hfolds, Build.bind_define_eq hcanonical hslot]
      refine ((hadd hslot.1).mono fun store hstore => ?_).map
      exact .fill hready hsettled hplace (fun h => by simp [hfolds] at h) hstore

/-! ### Visiting a node -/

section Plan

variable (hplan : d.plan.fault? d.old.serial = none) (hold : d.old.store.Among P)

include hplan

/-- A node gets its own attributes, and then those of its sources. -/
theorem attributes_eq (r : Ref) : d.attributes r =
    ((d.plan.sources r).map fun s => d.old.store.atIndex s.index).foldlM Attributes.combine
      (d.old.store.atIndex r.index) := by
  have hsources : ∀ (rs : List Ref), (∀ s ∈ rs, s.serial = d.old.serial) → ∀ found : Attributes,
      rs.foldlM (fun found source => do found.combine (← d.old.attributes source)) found =
        (rs.map fun s => d.old.store.atIndex s.index).foldlM Attributes.combine found := by
    intro rs
    induction rs with
    | nil => exact fun _ _ => rfl
    | cons s rest ih =>
      intro hrs found
      have hs : d.old.attributes s = .ok (d.old.store.atIndex s.index) :=
        AttributeStore.ofNode_eq_ok (hrs s (by simp))
      rw [List.map_cons, List.foldlM_cons, List.foldlM_cons, hs]
      exact bind_congr fun found' => ih (fun t ht => hrs t (by simp [ht])) found'
  exact hsources (d.plan.sources r) (fun s hs => Plan.serial_eq_of_mem_sources hplan hs) _

include hold

theorem attributes_ends (r : Ref) :
    Ends (d.attributes r) (fun _ => ¬d.Faultless P) fun attributes => attributes.Among P := by
  rw [attributes_eq hplan]
  refine Ends.foldlM (fun found hfound a ha => ?_) (hold r.index)
  obtain ⟨s, -, rfl⟩ := List.mem_map.1 ha
  exact (Attributes.combine_ends hfound (hold s.index)).mono_bad fun _ hnot hfaultless =>
    hnot hfaultless.types

theorem Grown.among_old (hw : d.Grown w) : w.draft.store.Among P :=
  hw.among fun {index _} h => (attributes_ends hplan hold (d.old.refAt index)).of_eq_ok h

/-- **A node whose children have images is settled in one step.** -/
theorem settle_ends {index : Nat} {node : Node} (hw : d.Grown w)
    (hmet : d.old.Visits d.plan.target (d.old.refAt index)) (hnode : d.old.node? index = some node)
    (hchildren : ∀ c ∈ node.children, (w.image? (d.goal c)).isSome)
    (hsettled : w.counterparts.find? index = none) :
    Ends (d.settle (d.old.refAt index) (node.mapChildren (d.imageOf w)) w)
      (fun _ => ¬d.Faultless P) fun out =>
        d.Step w out.2 ∧ ∃ draft, out.2 = w.settleAs index out.1 draft := by
  have hsound := hw.sound
  cases hattributes : d.attributes (d.old.refAt index) with
  | error f =>
    have hbad := hattributes ▸ attributes_ends hplan hold (d.old.refAt index)
    rw [settle_of_error hattributes]
    exact hbad
  | ok attributes =>
    have hamong := (attributes_ends hplan hold _).of_eq_ok hattributes
    obtain ⟨n, hn⟩ : ∃ n, n = (node.mapChildren (d.imageOf w)).canonical d.mapping d.alphabetize :=
      ⟨_, rfl⟩
    have hready : d.Ready w index n attributes :=
      ⟨hmet, ⟨node, hnode, hchildren, hn⟩, hattributes⟩
    have hcanonical : w.draft.canonical (node.mapChildren (d.imageOf w)) = .ok n := by
      rw [hn, ← hsound.mapping, ← hsound.alphabetize]
      refine Draft.canonical_eq_ok fun c hc => ?_
      obtain ⟨b, hb, rfl⟩ := Node.mem_children_mapChildren.1 hc
      obtain ⟨s, hs⟩ := Option.isSome_iff_exists.1 (hchildren b hb)
      exact imageOf_eq hs ▸ hsound.hasSlot hs
    -- what is added to the store, whichever way the node is stored
    have hadd : ∀ {s : Ref}, s.serial = w.draft.serial →
        Ends (w.draft.store.add s attributes) (fun _ => ¬d.Faultless P)
          fun store => w.draft.store.Writes s.index attributes store := fun hs =>
      (AttributeStore.add_ends hs (hw.among_old hplan hold) hamong).mono_bad fun _ hnot h =>
        hnot h.types
    rw [settle_of_ok hattributes]
    refine Ends.map ((storing_ends hsound hready hsettled hcanonical hadd).mono ?_)
    intro out hstep
    exact ⟨hstep, _, rfl⟩

/-- **Visiting a node takes steps until the node has an image.** The induction is on the bound
of the recursion, and the path keeps it from running out. -/
theorem visit_ends (hgroups : d.plan.groups = []) {depth : Nat} (hw : d.Grown w)
    (hpath : d.OnPath path w) (hdepth : d.old.size < depth + path.length) (hr : d.old.Owns r)
    (hmet : d.old.Visits d.plan.target (d.plan.target r)) :
    Ends (d.visit depth path r w) (fun _ => ¬d.Faultless P) fun out =>
      d.Steps w out.2 ∧ d.OnPath path out.2 ∧ out.2.image? (d.goal r) = some out.1 := by
  induction depth generalizing path r w with
  | zero =>
    have := hpath.length_le
    omega
  | succ depth ih =>
    have hserial := Plan.serial_target hplan hr.1
    have hgroup : ∀ index, d.plan.groupAt? index = none := fun index => by
      rw [Plan.groupAt?, hgroups, Plan.findGroup?]
    rw [visit]
    rw [Ref.requireSerial_eq_ok hr.1, bind_eq (a := ()) (v := w) rfl]
    simp only [hgroup]
    rw [bind_eq (a := w) (v := w) rfl]
    cases hc : w.counterparts.find? (d.plan.target r).index with
    | some new => exact ⟨.refl, hpath, Workspace.image?_of_counterpart hc⟩
    | none =>
      dsimp only
      cases hnode : d.old.node? (d.plan.target r).index with
      | none =>
        -- only a node that is out of range is not there
        rw [Generation.nodeAt, hnode]
        intro hfaultless
        obtain ⟨node, hsome⟩ := (hfaultless.inRange r hr).exists_node
        simp [hnode] at hsome
      | some node =>
        rw [Generation.nodeAt_eq_ok_of_node? hnode, bind_eq (a := node) (v := w) rfl]
        by_cases hmem : (d.plan.target r).index ∈ path
        · rw [if_pos hmem]
          exact placeholder_ends hpath hmem
        · rw [if_neg hmem]
          have hown : d.old.Owns (d.plan.target r) :=
            ⟨hserial, Generation.lt_size_of_node? hnode⟩
          have hcons := hpath.cons hmem hown.2 hc
          refine ends_bind (ends_mapChildrenM
            (fun v => d.Steps w v ∧ d.OnPath ((d.plan.target r).index :: path) v)
            (fun v c => v.image? (d.goal c)) ?_ ⟨.refl, hcons⟩) ?_
          · -- a child, in the workspace that the children before it left
            rintro c hchild v ⟨hsteps, hv⟩
            refine (ih (hw.steps hsteps) hv ?_ (Generation.owns_of_mem_children hnode hchild)
              (hmet.child hnode hchild)).mono ?_
            · rw [List.length_cons]
              omega
            · rintro out ⟨hout, hpath', himage⟩
              exact ⟨⟨hsteps.trans hout, hpath'⟩, himage, fun _ _ h =>
                (hout.grows (hw.steps hsteps)).image h⟩
          · -- the node itself
            rintro new v ⟨⟨hsteps, hv⟩, hchildren, hnew⟩
            obtain rfl : new = node.mapChildren (d.imageOf v) := hnew
            have hsettled := hv.unsettled _ List.mem_cons_self
            have href := hown.eq_refAt
            rw [href] at hmet ⊢
            refine (settle_ends hplan hold (hw.steps hsteps) hmet hnode hchildren hsettled).mono ?_
            rintro out ⟨hstep, draft, hout⟩
            refine ⟨hsteps.tail hstep, hout ▸ hv.settleAs, ?_⟩
            rw [hout, Workspace.image?_settleAs]
            exact if_pos rfl

end Plan

/-! ### The roots -/

/-- Rebuild what one root reaches, and bind it. -/
def rebuildRoot (d : Derivation) (e : String × Ref) : Rebuild Unit := do
  let new ← d.visitRoot e.2
  build (Build.addRoot e.1 new)
  build (Build.addRootAttributes e.1 (d.old.store.ofRoot e.1))

theorem rebuildRoots_eq : d.rebuildRoots = d.old.roots.entries.forM d.rebuildRoot := rfl

/-- The workspace between two roots: those of `done` are bound, and no node is being rebuilt. -/
structure Bound (d : Derivation) (done : List (String × Ref)) (w : Workspace) : Prop where
  grown : d.Grown w
  onPath : d.OnPath [] w
  image : ∀ e ∈ done, (w.image? (d.goal e.2)).isSome
  roots : w.draft.roots.entries = done.map fun e => (e.1, d.imageOf w e.2)
  rootAttributes : ∀ name ∉ done.map Prod.fst, w.draft.store.roots.find? name = none
  boundAttributes : ∀ e ∈ done, w.draft.store.ofRoot e.1 = d.old.store.ofRoot e.1
  options : w.draft.options = d.old.options
  lossDeclared : w.lossDeclared = false
  journal : w.journal = []

variable {done rest : List (String × Ref)} {name : String}

theorem bound_workspace : d.Bound [] d.workspace where
  grown := .start
  onPath := ⟨.nil, by simp, by simp, fun h => by
    simp [workspace, EmptyCollection.emptyCollection] at h⟩
  image := by simp
  roots := rfl
  rootAttributes := fun _ _ => rfl
  boundAttributes := nofun
  options := rfl
  lossDeclared := rfl
  journal := rfl

theorem Bound.steps (h : d.Bound done w) (hsteps : d.Steps w w') (hpath : d.OnPath [] w') :
    d.Bound done w' := by
  have hgrows := hsteps.grows h.grown
  have hsame := hsteps.sameRoots
  refine ⟨h.grown.steps hsteps, hpath, fun e he => isSome_of_grows hgrows (h.image e he), ?_,
    fun name hname => hsame.rootAttributes ▸ h.rootAttributes name hname, fun e he => ?_,
    hsame.options.trans h.options, hsame.lossDeclared.trans h.lossDeclared,
    hsame.journal.trans h.journal⟩
  · rw [hsame.roots, h.roots]
    refine List.map_congr_left fun e he => ?_
    rw [imageOf_eq_of_grows hgrows (h.image e he)]
  · rw [AttributeStore.ofRoot, hsame.rootAttributes]
    exact h.boundAttributes e he

/-- A root that has an image is bound to it and gets its attributes, which are the first that are
written under its name. -/
theorem bind_ends {bad : Fault → Prop} {new : Ref} (h : d.Bound done w)
    (hname : name ∉ done.map Prod.fst) (himage : w.image? (d.goal r) = some new) :
    Ends ((do
      build (Build.addRoot name new)
      build (Build.addRootAttributes name (d.old.store.ofRoot name)) : Rebuild Unit) w) bad fun out =>
        d.Bound (done ++ [(name, r)]) out.2 := by
  have hroot : w.draft.roots.find? name = none := by
    rw [OrderedMap.find?_eq_none_iff, OrderedMap.keys, h.roots]
    simpa using hname
  obtain ⟨attributes', hattributes, helsewhere, hhere⟩ := Build.addRootAttributes_eq
    { w.draft with roots := w.draft.roots.insert name new } (d.old.store.ofRoot name)
    (h.rootAttributes name hname)
  rw [bind_eq (build_eq (Build.addRoot_eq (h.grown.sound.hasSlot himage).1 hroot)),
    build_eq hattributes]
  have hgrown := h.grown.bindRoots (w.draft.roots.insert name new) attributes'
  refine ⟨hgrown, ⟨h.onPath.nodup, h.onPath.inRange, h.onPath.unsettled, h.onPath.placeholder⟩,
    fun e he => ?_, ?_, fun name' hname' => ?_, fun e he => ?_, h.options, h.lossDeclared, h.journal⟩
  · rcases List.mem_append.1 he with he | he
    · exact h.image e he
    · obtain rfl := List.mem_singleton.1 he
      exact Option.isSome_of_mem himage
  · change (w.draft.roots.insert name new).entries = _
    rw [OrderedMap.entries_insert_of_find?_eq_none hroot, h.roots, List.map_append]
    refine congrArg (_ ++ [·]) ?_
    rw [← imageOf_eq himage]
    rfl
  · rw [List.map_append, List.mem_append, not_or] at hname'
    change attributes'.find? name' = none
    rw [helsewhere name' (by simpa using hname'.2)]
    exact h.rootAttributes name' hname'.1
  · change (attributes'.find? e.1).getD ∅ = _
    rcases List.mem_append.1 he with he | he
    · have hne : e.1 ≠ name := fun heq => hname (heq ▸ List.mem_map_of_mem he)
      rw [helsewhere e.1 hne]
      exact h.boundAttributes e he
    · obtain rfl := List.mem_singleton.1 he
      exact hhere

section Plan

variable (hplan : d.plan.fault? d.old.serial = none) (hold : d.old.store.Among P)

include hplan hold

/-- The next root is rebuilt and bound. -/
theorem rebuildRoot_ends {e : String × Ref} (hgroups : d.plan.groups = []) (h : d.Bound done w)
    (hmem : e ∈ d.old.roots.entries) (hname : e.1 ∉ done.map Prod.fst) :
    Ends (d.rebuildRoot e w) (fun _ => ¬d.Faultless P) fun out => d.Bound (done ++ [e]) out.2 := by
  have hvisit : Ends (d.visitRoot e.2 w) (fun _ => ¬d.Faultless P) fun out =>
      d.Steps w out.2 ∧ d.OnPath [] out.2 ∧ out.2.image? (d.goal e.2) = some out.1 :=
    visit_ends hplan hold hgroups h.grown h.onPath (by simp [hgroups])
      (Generation.owns_of_mem_roots hmem) (.root hmem)
  refine ends_bind hvisit ?_
  rintro new w' ⟨hsteps, hpath, himage⟩
  exact bind_ends (h.steps hsteps hpath) hname himage

theorem rebuildRoots_ends (hgroups : d.plan.groups = []) :
    Ends (d.rebuildRoots d.workspace) (fun _ => ¬d.Faultless P) fun out =>
      d.Bound d.old.roots.entries out.2 := by
  rw [rebuildRoots_eq]
  refine ends_forM d.Bound (fun {done e rest} hall w h => ?_) bound_workspace
  exact rebuildRoot_ends hplan hold hgroups h (by simp [← hall])
    (OrderedMap.not_mem_keys_of_entries_eq hall)

end Plan

/-! ### Everything -/

/-- How a rebuilding without groups leaves the workspace. -/
def Finished (d : Derivation) (w : Workspace) : Prop := d.Bound d.old.roots.entries w

theorem Finished.placeholders {index : Nat} (h : d.Finished w) :
    w.placeholders.find? index = none := by
  cases hplace : w.placeholders.find? index with
  | none => rfl
  | some s => simpa using h.onPath.placeholder hplace

/-- A plan that does not fit is not carried out. -/
theorem run_eq_error {fault : Fault} (h : d.plan.fault? d.old.serial = some fault) :
    d.run = .error fault := by
  rw [run, h]

/-- **A rebuilding without groups ends with a finished workspace**, unless the plan does not fit
or two attributes of one name have different types. -/
theorem run_ends (hold : d.old.store.Among P) (hgroups : d.plan.groups = []) :
    Ends d.run (fun _ => ¬d.Faultless P) fun w =>
      d.plan.fault? d.old.serial = none ∧ d.Finished w := by
  cases hplan : d.plan.fault? d.old.serial with
  | some f =>
    rw [run_eq_error hplan]
    exact fun hfaultless => by simp [hfaultless.plan] at hplan
  | none =>
    rw [run, hplan]
    have hall : Ends (d.rebuildAll d.workspace) (fun _ => ¬d.Faultless P) fun out =>
        d.Finished out.2 := by
      refine ends_bind (rebuildRoots_ends hplan hold hgroups) fun _ w (h : d.Finished w) => ?_
      have hpending : d.pendingGroups w = [] := by
        rw [pendingGroups, hgroups]
        rfl
      have hempty := OrderedMap.isEmpty_of_find?_eq_none fun _ => h.placeholders
      rw [bind_eq (a := w) (v := w) rfl, hpending, bind_eq (a := ()) (v := w) rfl,
        bind_eq (a := w) (v := w) rfl, hempty]
      exact h
    exact hall.bind fun _ h => ⟨rfl, h⟩

end Derivation

end SchemaGraph
