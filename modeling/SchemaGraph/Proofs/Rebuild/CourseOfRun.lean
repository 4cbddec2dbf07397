import SchemaGraph.Proofs.Rebuild.Course

/-!
# Every rebuilding takes its course

The recursion of a rebuilding with groups, followed once: a visit takes a course until its node has
an image (`SchemaGraph.Derivation.visit_proceeds`), and so does a whole run
(`SchemaGraph.Derivation.course_of_run`): first what the roots reach, in the course of which no
group is started again, then the groups that no root reached. What is known of every
course (`SchemaGraph.Derivation.Course`) is then known of every run.

The bound on the recursion is never reached here either. A level of the recursion is spent on a
node that goes on the path, which is no longer than there are nodes, or on a group that was not
met, and a group that was started stays met.
-/

namespace SchemaGraph

namespace Derivation

open Rebuild

variable {d : Derivation} {restarts : Prop} {w w' w'' : Workspace} {deeds : List Deed}
  {path : List Nat} {index k n : Nat} {group : Group} {r slot : Ref}

/-! ### Groups that were not met -/

/-- Number of groups that were not met. -/
def unmet (d : Derivation) (w : Workspace) : Nat := d.plan.groups.countP fun group => !w.met group

theorem unmet_le_length : d.unmet w ≤ d.plan.groups.length := List.countP_le_length

theorem Course.unmet_le (h : d.Course restarts w deeds w') : d.unmet w' ≤ d.unmet w := by
  refine List.countP_mono_left fun group _ hmet => ?_
  rw [Bool.not_eq_true'] at hmet ⊢
  exact Bool.eq_false_iff.2 fun hw => by simp [h.met hw] at hmet

theorem met_opened_of_met {b : Group} (h : w.met b = true) : (opened w k group).met b = true := by
  obtain ⟨m, hm, hc⟩ := Workspace.met_iff.1 h
  exact Workspace.met_iff.2 ⟨m, hm, contains_starting.2 (.inl hc)⟩

theorem met_opened (hne : group.members ≠ []) : (opened w k group).met group = true := by
  obtain ⟨m, hm⟩ := List.exists_mem_of_ne_nil _ hne
  exact Workspace.met_iff.2 ⟨m, hm, contains_starting.2 (.inr ⟨m, hm, rfl⟩)⟩

/-- Starting a group leaves no more groups that were not met, and fewer if it was not. -/
theorem unmet_opened (hk : d.plan.groups[k]? = some group) (hne : group.members ≠ []) :
    d.unmet (opened w k group) + (!w.met group).toNat ≤ d.unmet w := by
  obtain ⟨before, after, hsplit⟩ := List.append_of_mem (List.mem_of_getElem? hk)
  have hle : ∀ groups : List Group, groups.countP (fun b => !(opened w k group).met b) ≤
      groups.countP fun b => !w.met b := fun groups =>
    List.countP_mono_left fun b _ hb => by
      rw [Bool.not_eq_true'] at hb ⊢
      exact Bool.eq_false_iff.2 fun hw => by simp [met_opened_of_met hw] at hb
  have hbefore := hle before
  have hafter := hle after
  rw [unmet, unmet, hsplit, List.countP_append, List.countP_append, List.countP_cons,
    List.countP_cons, met_opened hne]
  cases w.met group <;> simp <;> omega

/-! ### On the path -/

/-- What holds while the nodes on a path are being rebuilt and scripts run. -/
structure Underway (d : Derivation) (path : List Nat) (w : Workspace) : Prop where
  onPath : d.OnPath path w
  ungrouped : ∀ index ∈ path, d.plan.groupAt? index = none
  replaced : d.Replaced w

/-- The workspace goes on to another one, in the course of which the path stays. -/
structure Proceeds (d : Derivation) (restarts : Prop) (path : List Nat) (w w' : Workspace) :
    Prop where
  course : ∃ deeds, d.Course restarts w deeds w'
  underway : d.Underway path w'

theorem Underway.placeholders (h : d.Underway path w) : d.Ungrouped w :=
  fun _ _ hs => h.ungrouped _ (h.onPath.placeholder hs)

theorem Underway.proceeds (h : d.Underway path w) : d.Proceeds restarts path w w :=
  ⟨⟨[], .stop w⟩, h⟩

theorem Proceeds.trans (h : d.Proceeds restarts path w w') (h' : d.Proceeds restarts path w' w'') :
    d.Proceeds restarts path w w'' := by
  obtain ⟨deeds, hcourse⟩ := h.course
  obtain ⟨deeds', hcourse'⟩ := h'.course
  exact ⟨⟨deeds ++ deeds', hcourse.append hcourse'⟩, h'.underway⟩

theorem Proceeds.mono (h : d.Proceeds False path w w') : d.Proceeds restarts path w w' := by
  obtain ⟨deeds, hcourse⟩ := h.course
  exact ⟨⟨deeds, hcourse.mono False.elim⟩, h.underway⟩

theorem Proceeds.unmet_le (h : d.Proceeds restarts path w w') : d.unmet w' ≤ d.unmet w := by
  obtain ⟨deeds, hcourse⟩ := h.course
  exact hcourse.unmet_le

/-- A course that touches neither counterparts nor placeholders leaves the path as it is. -/
theorem Underway.proceeds_of_same (h : d.Underway path w) (hcourse : d.Course restarts w deeds w')
    (hapart : d.plan.groups.Pairwise Plan.Apart) (hcounterparts : w'.counterparts = w.counterparts)
    (hplaceholders : w'.placeholders = w.placeholders) : d.Proceeds restarts path w w' where
  course := ⟨deeds, hcourse⟩
  underway :=
    { onPath :=
        { nodup := h.onPath.nodup
          inRange := h.onPath.inRange
          unsettled := fun index hindex => hcounterparts ▸ h.onPath.unsettled index hindex
          placeholder := fun hs => h.onPath.placeholder (hplaceholders ▸ hs) }
      ungrouped := h.ungrouped
      replaced := hcourse.replaced hapart h.replaced }

/-- A group is not met if one of its members has no counterpart. -/
theorem Underway.not_met (h : d.Underway path w) {m : Ref} (hk : d.plan.groups[k]? = some group)
    (hm : m ∈ group.members) (hc : w.counterparts.find? m.index = none) : ¬w.met group = true := by
  intro hmet
  have hcontains := h.replaced.contains hk hmet hm
  simp [OrderedMap.contains, hc] at hcontains

/-! ### Scripts and groups -/

/-- Visits proceed, as long as no more than `n` groups were not met. -/
def VisitProceeds (d : Derivation) (path : List Nat) (n : Nat) (visit : Ref → Rebuild Ref) : Prop :=
  ∀ w, d.Underway path w → d.unmet w ≤ n → ∀ r, Ends (visit r w) (fun _ => True) fun out =>
    d.Proceeds False path w out.2 ∧ out.2.image? (d.goal r) = some out.1

section Groups

variable (hapart : d.plan.groups.Pairwise Plan.Apart)

include hapart

/-- **A script takes its course.** The induction is on the script. -/
theorem runScript_proceeds {visit : Ref → Rebuild Ref} (hvisit : d.VisitProceeds path n visit)
    {script : Script Ref} (hw : d.Underway path w) (hn : d.unmet w ≤ n) :
    Ends (runScript visit script w) (fun _ => True) fun out => d.Proceeds False path w out.2 := by
  induction script generalizing w with
  | done result => exact hw.proceeds
  | visiting old next ih =>
    refine ends_bind (hvisit w hw hn old) ?_
    rintro new w' ⟨h', -⟩
    exact (ih new h'.underway (Nat.le_trans h'.unmet_le hn)).mono fun _ => h'.trans
  | editing edit next ih =>
    have hedit : Ends (build edit.run w) (fun _ => True) fun out => d.Proceeds False path w out.2 :=
      ends_build (Ends.self.mono fun _ hrun => hw.proceeds_of_same (.edit hrun) hapart rfl rfl)
    refine ends_bind hedit fun answer w' h' => ?_
    exact (ih answer h'.underway (Nat.le_trans h'.unmet_le hn)).mono fun _ => h'.trans
  | inspecting next ih => exact ih w.draft hw hn
  | remarking ref next ih =>
    have h' : d.Proceeds False path w { w with journal := w.journal ++ [.remark ref] } :=
      hw.proceeds_of_same (.remark w ref) hapart rfl rfl
    exact (ih h'.underway (Nat.le_trans h'.unmet_le hn)).mono fun _ => h'.trans
  | declaringLoss next ih =>
    have h' : d.Proceeds False path w { w with lossDeclared := true } :=
      hw.proceeds_of_same (.declareLoss w) hapart rfl rfl
    exact (ih h'.underway (Nat.le_trans h'.unmet_le hn)).mono fun _ => h'.trans
  | failing fault => trivial

/-- The members of a group are not on the path when its script starts. -/
theorem Underway.opened (hw : d.Underway path w) (hk : d.plan.groups[k]? = some group) :
    d.Underway path (opened w k group) where
  onPath :=
    { nodup := hw.onPath.nodup
      inRange := hw.onPath.inRange
      unsettled := fun index hindex => by
        rw [counterparts_opened_of_not fun m =>
          Plan.not_mem_of_groupAt?_eq_none (hw.ungrouped index hindex) hk]
        exact hw.onPath.unsettled index hindex
      placeholder := hw.onPath.placeholder }
  ungrouped := hw.ungrouped
  replaced := hw.replaced.opened hapart hk

/-- **Replacing a group takes its course**, and from then on its members have an image. -/
theorem runGroup_proceeds {depth : Nat} (hvisit : d.VisitProceeds path n (d.visit depth path))
    (hw : d.Underway path w) (hk : d.plan.groups[k]? = some group)
    (hmet : w.met group = true → restarts) (hn : d.unmet (opened w k group) ≤ n) :
    Ends (d.runGroup (d.visit depth path) k group w) (fun _ => True) fun out =>
      d.Proceeds restarts path w out.2 ∧
        ∀ m ∈ group.members, out.2.image? m.index = some out.1 := by
  have hreserve : build Build.reserve w = .ok (w.draft.nextRef,
      { w with draft := { w.draft with slots := w.draft.slots.push none } }) := rfl
  rw [runGroup, bind_eq hreserve, bind_eq forM_setCounterpart_eq,
    bind_eq (a := ()) (v := Derivation.opened w k group) rfl]
  have hopened := hw.opened hapart hk
  refine ends_bind (runScript_proceeds hapart hvisit hopened hn).with_eq ?_
  rintro replacement w' ⟨hscript, h'⟩
  obtain ⟨deeds, hinner⟩ := h'.course
  have himage : ∀ m ∈ group.members, w'.image? m.index = some w.draft.nextRef := fun m hm =>
    hinner.image hapart hopened.placeholders False.elim
      (Workspace.image?_of_counterpart (counterparts_opened_of_mem hm))
  -- what the script returned is put behind the slot, or is the slot
  have hdone : ∀ w'', Closes w.draft.nextRef replacement w' w'' →
      d.Proceeds restarts path w w'' ∧ ∀ m ∈ group.members, w''.image? m.index =
        some w.draft.nextRef := by
    intro w'' hcloses
    obtain ⟨hcounterparts, hplaceholders, hjournal⟩ := hcloses.same
    have hcourse := Course.replace hk hmet hscript (hinner.mono False.elim) hcloses
    refine ⟨⟨⟨_, hcourse⟩, ⟨⟨h'.underway.onPath.nodup, h'.underway.onPath.inRange, ?_, ?_⟩,
      hw.ungrouped, hcourse.replaced hapart hw.replaced⟩⟩, fun m hm => ?_⟩
    · rw [hcounterparts]
      exact h'.underway.onPath.unsettled
    · rw [hplaceholders]
      exact h'.underway.onPath.placeholder
    · rw [Workspace.image?, hcounterparts, hplaceholders]
      exact himage m hm
  refine ends_bind_lift (Ends.of_forall (fun _ => trivial) fun _ => ?_)
  by_cases heq : replacement = w.draft.nextRef
  · rw [if_neg (not_not.2 heq)]
    exact hdone w' (.itself heq)
  · rw [if_pos heq]
    have hforward : Ends (build (Build.forward w.draft.nextRef replacement) w') (fun _ => True)
        fun out => Closes w.draft.nextRef replacement w' out.2 :=
      ends_build (Ends.self.mono fun _ hrun => .forwarding heq hrun)
    exact ends_bind hforward fun _ w'' hcloses => hdone w'' hcloses

/-! ### Visits -/

/-- A node on the path gets a placeholder. -/
theorem placeholder_proceeds (hw : d.Underway path w) (hmem : index ∈ path) :
    Ends (placeholder index w) (fun _ => True) fun out =>
      d.Proceeds False path w out.2 ∧ out.2.image? index = some out.1 := by
  have hends : Ends (placeholder index w) (fun _ => True) fun out =>
      d.Steps w out.2 ∧ d.OnPath path out.2 ∧ out.2.image? index = some out.1 :=
    placeholder_ends hw.onPath hmem
  have hsettled := hw.onPath.unsettled index hmem
  refine hends.with_eq.mono ?_
  rintro ⟨slot, w'⟩ ⟨hrun, -, hpath, himage⟩
  have hcourse : d.Course False w [] w' := by
    rw [placeholder, bind_eq (a := w) (v := w) rfl] at hrun
    cases hplace : w.placeholders.find? index with
    | some s =>
      rw [hplace] at hrun
      obtain ⟨-, rfl⟩ := Prod.mk.inj (Except.ok.inj hrun)
      exact .stop w
    | none =>
      rw [hplace] at hrun
      obtain ⟨-, rfl⟩ := Prod.mk.inj (Except.ok.inj hrun)
      exact .hold (hw.ungrouped index hmem) (Workspace.image?_eq_none_iff.2 ⟨hsettled, hplace⟩)
  exact ⟨⟨⟨[], hcourse⟩, hpath, hw.ungrouped, hcourse.replaced hapart hw.replaced⟩, himage⟩

/-- A node whose children have images is settled. -/
theorem settle_proceeds {old : Node} (hfolds : d.plan.foldsCycles = true)
    (hw : d.Underway (index :: path) w) (hnode : d.old.node? index = some old)
    (hchildren : ∀ c ∈ old.children, (w.image? (d.goal c)).isSome) :
    Ends (d.settle (d.old.refAt index) (old.mapChildren (d.imageOf w)) w) (fun _ => True) fun out =>
      d.Proceeds False path w out.2 ∧ out.2.image? index = some out.1 := by
  have hgroup := hw.ungrouped index List.mem_cons_self
  have hsettled := hw.onPath.unsettled index List.mem_cons_self
  cases hattributes : d.attributes (d.old.refAt index) with
  | error f =>
    rw [settle_of_error hattributes]
    trivial
  | ok attributes =>
    have hstoring : d.storing (w.placeholders.find? index) (old.mapChildren (d.imageOf w))
        attributes = Build.intern (old.mapChildren (d.imageOf w)) attributes
          (w.placeholders.find? index) := by
      cases w.placeholders.find? index with
      | none => exact storing_none
      | some slot => exact storing_of_folds hfolds
    rw [settle_of_ok hattributes]
    refine Ends.map (Ends.self.mono ?_)
    rintro ⟨new, draft⟩ hrun
    rw [Generation.refAt, hstoring] at hrun
    have hcourse : d.Course False w [] (w.settleAs index new draft) :=
      .settle hgroup hnode hchildren hattributes hsettled hrun
    refine ⟨⟨⟨[], hcourse⟩, hw.onPath.settleAs, fun i hi => ?_, hcourse.replaced hapart hw.replaced⟩,
      ?_⟩
    · exact hw.ungrouped i (List.mem_cons_of_mem _ hi)
    · rw [Workspace.image?_settleAs]
      exact if_pos rfl

/-- A node that was met is rebuilt: first its children, then the node itself. -/
theorem rebuild_proceeds {visit : Ref → Rebuild Ref} {old : Node}
    (hfolds : d.plan.foldsCycles = true) (hvisit : d.VisitProceeds (index :: path) n visit)
    (hw : d.Underway (index :: path) w) (hn : d.unmet w ≤ n) (hnode : d.old.node? index = some old) :
    Ends ((do d.settle (d.old.refAt index) (← old.mapChildrenM visit) : Rebuild Ref) w)
      (fun _ => True) fun out => d.Proceeds False path w out.2 ∧ out.2.image? index = some out.1 := by
  refine ends_bind (ends_mapChildrenM (fun v => d.Proceeds False (index :: path) w v)
    (fun v c => v.image? (d.goal c)) ?_ hw.proceeds) ?_
  · -- a child, in the workspace that the children before it left
    intro c hchild v hv
    refine (hvisit v hv.underway (Nat.le_trans hv.unmet_le hn) c).mono ?_
    rintro out ⟨hout, himage⟩
    obtain ⟨deeds, hcourse⟩ := hout.course
    exact ⟨hv.trans hout, himage, fun _ _ =>
      hcourse.image hapart hv.underway.placeholders False.elim⟩
  · -- the node itself
    rintro new v ⟨hv, hchildren, hnew⟩
    obtain rfl : new = old.mapChildren (d.imageOf v) := hnew
    refine (settle_proceeds hapart hfolds hv.underway hnode hchildren).mono ?_
    rintro out ⟨hout, himage⟩
    obtain ⟨deeds, hcourse⟩ := hv.course
    obtain ⟨deeds', hcourse'⟩ := hout.course
    exact ⟨⟨⟨deeds ++ deeds', hcourse.append hcourse'⟩, hout.underway⟩, himage⟩

end Groups

section Plan

variable (hplan : d.plan.fault? d.old.serial = none) (hfolds : d.plan.foldsCycles = true)

include hplan hfolds

/-- **A visit takes its course until the node has an image.** The induction is on the bound of the
recursion, which the path and the groups that were met keep from running out. -/
theorem visit_proceeds {depth : Nat} (hdepth : d.old.size + n < depth + path.length) :
    d.VisitProceeds path n (d.visit depth path) := by
  obtain ⟨hne, hapart⟩ := Plan.groups_of_fault? hplan
  induction depth generalizing path n with
  | zero =>
    intro w hw
    have := hw.onPath.length_le
    omega
  | succ depth ih =>
    intro w hw hn r
    rw [visit]
    refine ends_bind_lift ?_
    by_cases hserial : r.serial = d.old.serial
    case neg =>
      rw [Ref.requireSerial, if_neg hserial]
      trivial
    rw [Ref.requireSerial_eq_ok hserial, Ends.ok_iff, bind_eq (a := w) (v := w) rfl]
    cases hc : w.counterparts.find? (d.plan.target r).index with
    | some new => exact ⟨hw.proceeds, Workspace.image?_of_counterpart hc⟩
    | none =>
      dsimp only
      cases hgroup : d.plan.groupAt? (d.plan.target r).index with
      | some found =>
        obtain ⟨number, group⟩ := found
        obtain ⟨j, rfl, hj, m, hm, hindex⟩ := Plan.exists_of_findGroup? hgroup
        rw [Nat.zero_add]
        have hunmet := hw.not_met hj hm (hindex ▸ hc)
        -- one group less was not met, so there is a level of the recursion for its script
        have hless := unmet_opened (w := w) hj (hne group (List.mem_of_getElem? hj))
        rw [Bool.eq_false_iff.2 hunmet, Bool.not_false, Bool.toNat_true] at hless
        have hvisit : d.VisitProceeds path (n - 1) (d.visit depth path) := ih (by omega)
        have hrun := runGroup_proceeds hapart hvisit hw hj hunmet (by omega)
        refine hrun.mono ?_
        rintro out ⟨h', himage⟩
        refine ⟨h', ?_⟩
        rw [goal, ← hindex]
        exact himage m hm
      | none =>
        dsimp only
        cases hnode : d.old.node? (d.plan.target r).index with
        | none =>
          rw [Generation.nodeAt, hnode]
          trivial
        | some node =>
          rw [Generation.nodeAt_eq_ok_of_node? hnode, bind_eq (a := node) (v := w) rfl]
          by_cases hmem : (d.plan.target r).index ∈ path
          · rw [if_pos hmem]
            exact placeholder_proceeds hapart hw hmem
          · rw [if_neg hmem]
            have hown : d.old.Owns (d.plan.target r) :=
              ⟨Plan.serial_target hplan hserial, Generation.lt_size_of_node? hnode⟩
            have hcons : d.Underway ((d.plan.target r).index :: path) w :=
              ⟨hw.onPath.cons hmem hown.2 hc, List.forall_mem_cons.2 ⟨hgroup, hw.ungrouped⟩,
                hw.replaced⟩
            have hvisit : d.VisitProceeds ((d.plan.target r).index :: path) n
                (d.visit depth ((d.plan.target r).index :: path)) := ih (by
              rw [List.length_cons]
              omega)
            have hrebuild := rebuild_proceeds hapart hfolds hvisit hcons hn hnode
            rw [← hown.eq_refAt] at hrebuild
            exact hrebuild

theorem visitRoot_proceeds : d.VisitProceeds [] d.plan.groups.length d.visitRoot :=
  visit_proceeds hplan hfolds (by rw [List.length_nil]; omega)

/-! ### A whole run -/

/-- **The roots are rebuilt in a course** in which no group is started again. -/
theorem rebuildRoots_proceeds (hw : d.Underway [] w) :
    Ends (d.rebuildRoots w) (fun _ => True) fun out => d.Proceeds False [] w out.2 := by
  obtain ⟨-, hapart⟩ := Plan.groups_of_fault? hplan
  -- what is done with the root itself is none of the scripts' business
  have hbind : ∀ (edit : Edit) (w : Workspace), (∀ slot, ¬edit.PutsBehind slot) →
      d.Underway [] w → Ends (build edit.run w) (fun _ => True) fun out =>
        d.Proceeds False [] w out.2 := fun edit w hnot hw =>
    ends_build (Ends.self.mono fun _ hrun => hw.proceeds_of_same (.bind hnot hrun) hapart rfl rfl)
  rw [rebuildRoots_eq]
  induction d.old.roots.entries generalizing w with
  | nil => exact hw.proceeds
  | cons e rest ih =>
    have hroot : Ends (d.rebuildRoot e w) (fun _ => True) fun out =>
        d.Proceeds False [] w out.2 := by
      refine ends_bind (visitRoot_proceeds hplan hfolds w hw unmet_le_length e.2) ?_
      rintro new w₁ ⟨h₁, -⟩
      refine ends_bind (hbind (.bindRoot e.1 new) w₁ nofun h₁.underway) fun _ w₂ h₂ => ?_
      refine (hbind (.annotateRoot e.1 (d.old.store.ofRoot e.1)) w₂ nofun h₂.underway).mono ?_
      exact fun _ h₃ => (h₁.trans h₂).trans h₃
    exact ends_bind hroot fun _ w₁ h₁ => (ih h₁.underway).mono fun _ => h₁.trans

/-- The groups that no root reached are replaced in a course in which groups may be started
again. -/
theorem pending_proceeds {pending : List (Group × Nat)}
    (hpending : ∀ e ∈ pending, d.plan.groups[e.2]? = some e.1) (hw : d.Underway [] w) :
    Ends ((pending.forM fun (group, number) => (do
        let _ ← d.runGroup d.visitRoot number group : Rebuild Unit)) w) (fun _ => True)
      fun out => d.Proceeds True [] w out.2 := by
  obtain ⟨-, hapart⟩ := Plan.groups_of_fault? hplan
  induction pending generalizing w with
  | nil => exact hw.proceeds
  | cons e rest ih =>
    obtain ⟨hgroup, hrest⟩ := List.forall_mem_cons.1 hpending
    have hone : Ends ((do let _ ← d.runGroup d.visitRoot e.2 e.1 : Rebuild Unit) w)
        (fun _ => True) fun out => d.Proceeds True [] w out.2 := by
      refine ends_bind (runGroup_proceeds hapart (visitRoot_proceeds hplan hfolds) hw hgroup
        (fun _ => trivial) unmet_le_length) ?_
      rintro _ w₁ ⟨h₁, -⟩
      exact h₁
    exact ends_bind hone fun _ w₁ h₁ => (ih hrest h₁.underway).mono fun _ => h₁.trans

end Plan

theorem underway_workspace : d.Underway [] d.workspace where
  onPath := bound_workspace.onPath
  ungrouped := by simp
  replaced := replaced_workspace

/-- **Every run takes its course**: what the roots reach is rebuilt without starting a group again,
then the groups that no root reached are replaced. -/
theorem course_of_run (hfolds : d.plan.foldsCycles = true) (h : d.run = .ok w) :
    d.plan.fault? d.old.serial = none ∧ ∃ w₁, d.rebuildRoots d.workspace = .ok ((), w₁) ∧
      d.Proceeds False [] d.workspace w₁ ∧ d.Proceeds True [] w₁ w := by
  rw [run] at h
  cases hplan : d.plan.fault? d.old.serial with
  | some f =>
    rw [hplan] at h
    cases h
  | none =>
    rw [hplan] at h
    have hall : Ends (d.rebuildAll d.workspace) (fun _ => True) fun out =>
        ∃ w₁, d.rebuildRoots d.workspace = .ok ((), w₁) ∧ d.Proceeds False [] d.workspace w₁ ∧
          d.Proceeds True [] w₁ out.2 := by
      refine ends_bind (rebuildRoots_proceeds hplan hfolds underway_workspace).with_eq ?_
      rintro _ w₁ ⟨hroots, h₁⟩
      rw [bind_eq (a := w₁) (v := w₁) rfl]
      refine ends_bind (pending_proceeds hplan hfolds (fun e => mem_pendingGroups)
        h₁.underway) fun _ w₂ h₂ => ?_
      rw [bind_eq (a := w₂) (v := w₂) rfl]
      cases w₂.placeholders.isEmpty with
      | true => exact ⟨w₁, hroots, h₁, h₂⟩
      | false => trivial
    have hrun : Ends (d.rebuildAll.run d.workspace >>= fun out => pure out.2) (fun _ => True)
        fun w => ∃ w₁, d.rebuildRoots d.workspace = .ok ((), w₁) ∧
          d.Proceeds False [] d.workspace w₁ ∧ d.Proceeds True [] w₁ w :=
      hall.bind fun _ hout => hout
    exact ⟨rfl, hrun.of_eq_ok h⟩

end Derivation

end SchemaGraph
