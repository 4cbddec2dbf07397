import SchemaGraph.Proofs.Rebuild.Order

/-!
# A rebuilding is a depth-first search

The recursion of a rebuilding without groups, followed beside that of the search of its old
generation: a node is settled when the search leaves it, and is given a placeholder when the search
meets it again from below. So what is kept by these two kinds of step
(`SchemaGraph.Derivation.Accompanies`) is kept by a visit (`SchemaGraph.Derivation.visit_keeps`) and
by a whole run beside the whole search (`SchemaGraph.Derivation.run_keeps`).

In a substitution it is kept that counterparts are shared as
`SchemaGraph.Derivation.Follows` says. So what a run makes of the old nodes can be read off
(`SchemaGraph.Derivation.Follows.imageOf_eq_iff`).
-/

namespace SchemaGraph

/-- Nothing was changed but roots and attributes. -/
structure Workspace.SameNodes (w w' : Workspace) : Prop where
  counterparts : w'.counterparts = w.counterparts
  placeholders : w'.placeholders = w.placeholders
  serial : w'.draft.serial = w.draft.serial
  slots : w'.draft.slots = w.draft.slots
  identities : w'.draft.identities = w.draft.identities
  forwarded : w'.draft.forwarded = w.draft.forwarded

namespace Derivation

open Rebuild

variable {d : Derivation} {w w' : Workspace} {s : Search} {path : List Nat} {index : Nat} {r : Ref}

/-- What is kept while a rebuilding and the search of its old generation go on side by side. -/
structure Accompanies (d : Derivation) (good : Workspace → Search → Prop) : Prop where
  start : good d.workspace .start
  done : ∀ {w s}, good w s → ∀ {i}, (w.counterparts.find? i).isSome ↔ i ∈ s.done
  same : ∀ {w w' s}, good w s → w.SameNodes w' → good w' s
  /-- A node on the path is met again, and has a placeholder from now on. -/
  reserve : ∀ {w w' s index}, good w s → d.Sound w → w.Grows w' →
    w.counterparts.find? index = none → w'.counterparts = w.counterparts →
      w'.draft.identities = w.draft.identities →
        (∀ i, (w'.placeholders.find? i).isSome ↔
          i = index ∨ (w.placeholders.find? i).isSome) → good w' (s.reenter index)
  /-- A node gets its counterpart. -/
  settle : ∀ {w s index r draft}, good w s → d.Grown w → w.counterparts.find? index = none →
    d.Step w (w.settleAs index r draft) → good (w.settleAs index r draft) (s.leave index)

/-! ### One node -/

section Keeps

variable {good : Workspace → Search → Prop} (hgood : d.Accompanies good)

include hgood

/-- A node on the path is met again. -/
theorem placeholder_keeps {bad : Fault → Prop} (h : good w s) (hsound : d.Sound w)
    (hpath : d.OnPath path w) (hmem : index ∈ path) :
    Ends (placeholder index w) bad fun out => good out.2 (s.reenter index) := by
  have hsettled := hpath.unsettled index hmem
  rw [placeholder]
  rw [bind_eq (a := w) (v := w) rfl]
  cases hplace : w.placeholders.find? index with
  | some slot =>
    refine hgood.reserve h hsound (.refl w) hsettled rfl rfl fun i => ?_
    refine (or_iff_right_of_imp fun heq => ?_).symm
    rw [heq, hplace]
    rfl
  | none =>
    have hstep := Step.reserve (d := d) (hpath.inRange index hmem)
      (Workspace.image?_eq_none_iff.2 ⟨hsettled, hplace⟩)
    refine hgood.reserve h hsound (hstep.grows hsound) hsettled rfl rfl fun i => ?_
    change ((w.placeholders.insert index _).find? i).isSome ↔ _
    rw [OrderedMap.find?_insert]
    grind

section Plan

variable (hplan : d.plan.fault? d.old.serial = none) (hgroups : d.plan.groups = [])

include hplan hgroups

omit hgood in
/-- The children of a node that is put on the path are visited in their order, and `step` is taken
for each of them. -/
theorem mapChildrenM_keeps {depth : Nat} {node : Node} {step : Search → Ref → Search}
    (h : good w s) (hw : d.Grown w) (hpath : d.OnPath (index :: path) w)
    (hdepth : d.old.size < depth + (index :: path).length) (hnode : d.old.node? index = some node)
    (hmet : d.old.Visits d.plan.target (d.old.refAt index))
    (hstep : ∀ c ∈ node.children, ∀ v t, d.Grown v → d.OnPath (index :: path) v → good v t →
      Ends (d.visit depth (index :: path) c v) (fun _ => True) fun out =>
        good out.2 (step t c)) :
    Ends (node.mapChildrenM (d.visit depth (index :: path)) w) (fun _ => True) fun out =>
      d.Grown out.2 ∧ d.OnPath (index :: path) out.2 ∧
        (∀ c ∈ node.children, (out.2.image? (d.goal c)).isSome) ∧
        out.1 = node.mapChildren (d.imageOf out.2) ∧
        good out.2 (node.children.foldl step s) := by
  have hvisit : ∀ c ∈ node.children, ∀ v, d.Grown v → d.OnPath (index :: path) v →
      Ends (d.visit depth (index :: path) c v) (fun _ => True) fun out =>
        d.Steps v out.2 ∧ d.OnPath (index :: path) out.2 ∧
          out.2.image? (d.goal c) = some out.1 := fun c hc v hv hpath' =>
    (visit_ends (P := fun _ => True) hplan (fun _ _ _ => trivial) hgroups hv hpath' hdepth
      (Generation.owns_of_mem_children hnode hc) (hmet.child hnode hc)).mono_bad
        fun _ _ => trivial
  -- what the visits find out, and what they do to the search
  have himages : Ends (node.mapChildrenM (d.visit depth (index :: path)) w) (fun _ => True) _ :=
    ends_mapChildrenM (fun v => d.Grown v ∧ d.OnPath (index :: path) v)
      (fun v c => v.image? (d.goal c)) (fun c hc v hv =>
        (hvisit c hc v hv.1 hv.2).mono fun out hout =>
          ⟨⟨hv.1.steps hout.1, hout.2.1⟩, hout.2.2, fun _ _ => (hout.1.grows hv.1).image⟩)
      ⟨hw, hpath⟩
  have hsearch : Ends (node.mapChildrenM (d.visit depth (index :: path)) w) (fun _ => True) _ :=
    ends_mapChildrenM_foldl
      (fun v t => (d.Grown v ∧ d.OnPath (index :: path) v) ∧ good v t) step
      (fun c hc v t hv => ((hvisit c hc v hv.1.1 hv.1.2).and
        (hstep c hc v t hv.1.1 hv.1.2 hv.2)).mono fun out hout =>
          ⟨⟨hv.1.1.steps hout.1.1, hout.1.2.1⟩, hout.2⟩)
      ⟨⟨hw, hpath⟩, h⟩
  refine (himages.and hsearch).mono fun out hout => ?_
  exact ⟨hout.1.1.1, hout.1.1.2, hout.1.2.1, hout.1.2.2, hout.2.2⟩

/-- Once its children are visited, the node is settled, and the search leaves it. -/
theorem settleNode_keeps {depth : Nat} {node : Node} {step : Search → Ref → Search}
    (h : good w s) (hw : d.Grown w) (hpath : d.OnPath (r.index :: path) w)
    (hdepth : d.old.size < depth + (r.index :: path).length) (hown : d.old.Owns r)
    (hnode : d.old.node? r.index = some node) (hmet : d.old.Visits d.plan.target r)
    (hstep : ∀ c ∈ node.children, ∀ v t, d.Grown v → d.OnPath (r.index :: path) v →
      good v t → Ends (d.visit depth (r.index :: path) c v) (fun _ => True) fun out =>
        good out.2 (step t c)) :
    Ends ((node.mapChildrenM (d.visit depth (r.index :: path)) >>= d.settle r) w) (fun _ => True)
      fun out => good out.2 ((node.children.foldl step s).leave r.index) := by
  rw [hown.eq_refAt] at hmet ⊢
  refine ends_bind
    (mapChildrenM_keeps hplan hgroups h hw hpath hdepth hnode hmet hstep) ?_
  rintro new v ⟨hv, hpath', hsome, hnew, hkept⟩
  obtain rfl : new = node.mapChildren (d.imageOf v) := hnew
  have hsettled := hpath'.unsettled _ List.mem_cons_self
  refine ((settle_ends (P := fun _ => True) hplan (fun _ _ _ => trivial) hv hmet hnode
    hsome hsettled).mono_bad fun _ _ => trivial).mono ?_
  rintro out ⟨hout, draft, heq⟩
  rw [heq] at hout ⊢
  exact hgood.settle hkept hv hsettled hout

/-- **Visiting a node keeps what each step keeps.** The induction is that of
`SchemaGraph.Derivation.visit_ends`. -/
theorem visit_keeps {depth depth' : Nat} (h : good w s) (hw : d.Grown w)
    (hpath : d.OnPath path w) (hdepth : d.old.size < depth + path.length)
    (hdepth' : d.old.size < depth' + path.length) (hr : d.old.Owns r)
    (hmet : d.old.Visits d.plan.target (d.plan.target r)) :
    Ends (d.visit depth path r w) (fun _ => True) fun out =>
      good out.2 (Search.visit d.below depth' path (d.goal r) s) := by
  induction depth generalizing path r w s depth' with
  | zero =>
    have := hpath.length_le
    omega
  | succ depth ih =>
    cases depth' with
    | zero =>
      have := hpath.length_le
      omega
    | succ depth' =>
      have hgroup : ∀ index, d.plan.groupAt? index = none := fun index => by
        rw [Plan.groupAt?, hgroups, Plan.findGroup?]
      rw [visit, Search.visit]
      rw [Ref.requireSerial_eq_ok hr.1, bind_eq (a := ()) (v := w) rfl]
      simp only [hgroup]
      rw [bind_eq (a := w) (v := w) rfl]
      cases hc : w.counterparts.find? (d.plan.target r).index with
      | some new =>
        rw [if_pos (show d.goal r ∈ s.done from (hgood.done h).1 (Option.isSome_of_mem hc))]
        exact h
      | none =>
        have hdone : d.goal r ∉ s.done := fun hmem => by
          simpa [hc, goal] using (hgood.done h).2 hmem
        rw [if_neg hdone]
        dsimp only
        cases hnode : d.old.node? (d.plan.target r).index with
        | none =>
          rw [Generation.nodeAt, hnode]
          trivial
        | some node =>
          rw [Generation.nodeAt_eq_ok_of_node? hnode, bind_eq (a := node) (v := w) rfl]
          by_cases hmem : (d.plan.target r).index ∈ path
          · rw [if_pos hmem, if_pos (show d.goal r ∈ path from hmem)]
            exact placeholder_keeps hgood h hw.sound hpath hmem
          · rw [if_neg hmem, if_neg (show d.goal r ∉ path from hmem)]
            have hown : d.old.Owns (d.plan.target r) :=
              ⟨Plan.serial_target hplan hr.1, Generation.lt_size_of_node? hnode⟩
            have hcons := hpath.cons hmem hown.2 hc
            have hlength : d.old.size < depth + ((d.plan.target r).index :: path).length := by
              rw [List.length_cons]
              omega
            have hlength' : d.old.size < depth' + ((d.plan.target r).index :: path).length := by
              rw [List.length_cons]
              omega
            have hbelow : d.below (d.goal r) = node.children.map d.goal := by
              rw [below, Generation.childrenAt, goal, hnode]
            rw [hbelow, List.foldl_map]
            exact settleNode_keeps hgood hplan hgroups h hw hcons hlength hown hnode hmet
              fun c hchild v t hv hpath' hkept => ih hkept hv hpath' hlength hlength'
                (Generation.owns_of_mem_children hnode hchild) (hmet.child hnode hchild)

/-- The next root is searched and bound. -/
theorem rebuildRoot_keeps {done : List (String × Ref)} {e : String × Ref} (h : good w s)
    (hw : d.Bound done w) (hmem : e ∈ d.old.roots.entries) :
    Ends (d.rebuildRoot e w) (fun _ => True) fun out =>
      good out.2 (Search.visit d.below (d.old.size + 1) [] (d.goal e.2) s) := by
  have hvisit : Ends (d.visitRoot e.2 w) (fun _ => True) fun out =>
      good out.2 (Search.visit d.below (d.old.size + 1) [] (d.goal e.2) s) :=
    visit_keeps hgood hplan hgroups h hw.grown hw.onPath (by simp [hgroups]) (by simp)
      (Generation.owns_of_mem_roots hmem) (.root hmem)
  refine ends_bind hvisit fun new w' hkept => ?_
  -- binding a root changes no node
  have hbuild : ∀ {action : Build Unit} {v : Workspace},
      (∀ c, action v.draft = .ok ((), c) → v.SameNodes { v with draft := c }) →
        good v (Search.visit d.below (d.old.size + 1) [] (d.goal e.2) s) →
        Ends (build action v) (fun _ => True) fun out =>
          good out.2 (Search.visit d.below (d.old.size + 1) [] (d.goal e.2) s) :=
    fun hsame hv => ends_build (Ends.self.mono fun out hout => hgood.same hv (hsame _ hout))
  refine ends_bind (hbuild (fun c hc => ?_) hkept) fun _ v hv => hbuild (fun c hc => ?_) hv
  · obtain ⟨roots, rfl⟩ := Build.exists_of_addRoot hc
    exact ⟨rfl, rfl, rfl, rfl, rfl, rfl⟩
  · obtain ⟨store, hstore, rfl⟩ := Build.exists_of_addRootAttributes hc
    exact ⟨rfl, rfl, AttributeStore.serial_addRoot hstore, rfl, rfl, rfl⟩

theorem rebuildRoots_keeps (hold : d.old.store.Among fun _ => True) :
    Ends (d.rebuildRoots d.workspace) (fun _ => True) fun out => good out.2 d.search := by
  have hlist : ∀ rest done w s, done ++ rest = d.old.roots.entries → d.Bound done w →
      good w s → Ends (rest.forM d.rebuildRoot w) (fun _ => True) fun out =>
        good out.2 (rest.foldl
          (fun s e => Search.visit d.below (d.old.size + 1) [] (d.goal e.2) s) s) := by
    intro rest
    induction rest with
    | nil => exact fun done w s _ _ h => h
    | cons e rest ih =>
      intro done w s hall hw h
      have hmem : e ∈ d.old.roots.entries := by simp [← hall]
      have hname : e.1 ∉ done.map Prod.fst := by
        have hnodup := d.old.roots.nodup
        rw [← hall, List.map_append, List.nodup_append] at hnodup
        exact fun hn => hnodup.2.2 e.1 hn e.1 (by simp) rfl
      have hroot := (rebuildRoot_ends hplan hold hgroups hw hmem hname).mono_bad
        fun _ _ => trivial
      refine ends_bind (hroot.and (rebuildRoot_keeps hgood hplan hgroups h hw hmem)) ?_
      rintro _ v ⟨hv, hkept⟩
      exact ih (done ++ [e]) v _ (by simp [← hall]) hv hkept
  rw [rebuildRoots_eq]
  exact hlist _ [] _ .start rfl bound_workspace hgood.start

end Plan

/-- **A run keeps what each step keeps**, beside the whole search. -/
theorem run_keeps (hgroups : d.plan.groups = []) (h : d.run = .ok w) : good w d.search := by
  have hends : Ends d.run (fun _ => True) fun w => good w d.search := by
    rw [run]
    cases hplan : d.plan.fault? d.old.serial with
    | some f => trivial
    | none =>
      have hall : Ends (d.rebuildAll d.workspace) (fun _ => True) fun out =>
          good out.2 d.search := by
        refine ends_bind (rebuildRoots_keeps hgood hplan hgroups fun _ _ _ => trivial)
          fun _ w hkept => ?_
        have hpending : d.pendingGroups w = [] := by
          rw [pendingGroups, hgroups]
          rfl
        rw [bind_eq (a := w) (v := w) rfl, hpending, bind_eq (a := ()) (v := w) rfl,
          bind_eq (a := w) (v := w) rfl]
        split
        · exact hkept
        · trivial
      exact hall.bind fun _ h => h
  exact hends.of_eq_ok h

end Keeps

/-! ### Substitutions -/

/-- A step that settles a node lets the search be done with it, if nodes with placeholders are not
looked for. -/
theorem Follows.settled {draft : Draft} (h : d.Follows w s) (hsound : d.Sound w)
    (hfolds : d.plan.foldsCycles = false) (hsettled : w.counterparts.find? index = none)
    (hstep : d.Step w (w.settleAs index r draft)) :
    d.Follows (w.settleAs index r draft) (s.leave index) := by
  have hgrows := hstep.grows hsound
  -- the step settles no other node
  have hsame : ∀ {k t draft'}, w.counterparts.find? k = none →
      w.settleAs index r draft = w.settleAs k t draft' → k = index ∧ t = r ∧ draft' = draft := by
    intro k t draft' hk heq
    have hdraft : draft = draft' := congrArg Workspace.draft heq
    have hfind := congrArg (fun v : Workspace => v.counterparts.find? k) heq
    simp only [Workspace.counterparts_settleAs, hk, if_true] at hfind
    split at hfind
    · next hindex => exact ⟨hindex.symm, (Option.some.inj hfind).symm, hdraft.symm⟩
    · cases hfind
  generalize hw' : w.settleAs index r draft = w' at hstep
  cases hstep with
  | reserve =>
    have hfind := congrArg (fun v : Workspace => v.counterparts.find? index) hw'
    simp [Workspace.counterparts_settleAs, hsettled] at hfind
  | share hready hnone hplace hid hstore =>
    obtain ⟨rfl, rfl, rfl⟩ := hsame hnone hw'
    exact hw' ▸ h.settleAs hsound hready.identified hsettled hgrows (.shared hplace hid)
  | store hready hnone hplace hid hstore =>
    obtain ⟨rfl, rfl, rfl⟩ := hsame hnone hw'
    exact hw' ▸ h.settleAs hsound hready.identified hsettled hgrows
      (.new hid fun _ => Draft.not_holds_nextRef)
  | fold _ _ _ hdoes => simp [hfolds] at hdoes
  | @fill k node attributes slot store hready hnone hplace hid hstore =>
    obtain ⟨rfl, rfl, rfl⟩ := hsame hnone hw'
    have hempty : ∀ n, ¬w.draft.Holds slot n := fun _ hn =>
      hn.not_isEmptyAt (hsound.placeholder hplace).1
    refine hw' ▸ h.settleAs hsound hready.identified hsettled hgrows ?_
    dsimp only
    split
    · next hknown => exact .apart (Option.isSome_of_mem hplace) hknown hempty
    · next hnew =>
      exact .new (OrderedMap.contains_eq_false_iff.1 (Bool.eq_false_iff.2 hnew)) hempty

theorem accompanies_follows (hfolds : d.plan.foldsCycles = false) : d.Accompanies d.Follows where
  start := follows_workspace
  done h := h.done
  same h hsame := h.of_same hsame.counterparts hsame.placeholders hsame.identities
  reserve h := h.reserve
  settle h hw := h.settled hw.sound hfolds

/-- **A substitution follows the search.** -/
theorem follows_of_run (hgroups : d.plan.groups = []) (hfolds : d.plan.foldsCycles = false)
    (h : d.run = .ok w) : d.Follows w d.search :=
  run_keeps (accompanies_follows hfolds) hgroups h

/-! ### What the old nodes become -/

namespace Follows

variable {new : Generation} {t : Ref} (hs : d.Follows w s) (h : d.Derives w new)

include h

omit hs in
theorem exists_identified_of_visits (hr : d.old.Visits d.plan.target r) :
    ∃ identity, d.Identified w r.index identity :=
  h.finished.grown.sound.exists_identified (h.counterpart_imageOf hr)

include hs

/-- **Two old nodes share a counterpart exactly if they are to be stored under one identity and
neither is kept apart.** -/
theorem imageOf_eq_iff (hr : d.old.Visits d.plan.target r) (ht : d.old.Visits d.plan.target t) :
    d.imageOf w r = d.imageOf w t ↔
      r = t ∨ (d.Alike w r.index t.index ∧ ¬d.Kept w s r.index ∧ ¬d.Kept w s t.index) := by
  have hcounterpart := h.counterpart_imageOf hr
  have hcounterpart' := h.counterpart_imageOf ht
  constructor
  · intro heq
    rw [← heq] at hcounterpart'
    refine or_iff_not_imp_left.2 fun hne => ?_
    have hindex : r.index ≠ t.index := fun hindex =>
      hne ((h.owns_of_visits hr).eq_of_index_eq (h.owns_of_visits ht) hindex)
    have hnot : ¬d.Kept w s r.index := fun hk =>
      hindex ((hs.kept hcounterpart hk).1 _ hcounterpart').symm
    have hnot' : ¬d.Kept w s t.index := fun hk =>
      hindex ((hs.kept hcounterpart' hk).1 _ hcounterpart)
    obtain ⟨identity, hid⟩ := exists_identified_of_visits h hr
    obtain ⟨identity', hid'⟩ := exists_identified_of_visits h ht
    have hfind := hs.shared hcounterpart hid hnot
    have hfind' := hs.shared hcounterpart' hid' hnot'
    obtain rfl := hs.identity_inj hfind hfind'
    exact ⟨⟨identity, hid, hid'⟩, hnot, hnot'⟩
  · rintro (rfl | ⟨⟨identity, hid, hid'⟩, hnot, hnot'⟩)
    · rfl
    · exact Option.some.inj ((hs.shared hcounterpart hid hnot).symm.trans
        (hs.shared hcounterpart' hid' hnot'))

end Follows

end Derivation

end SchemaGraph
