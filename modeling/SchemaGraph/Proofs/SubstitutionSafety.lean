import SchemaGraph.Proofs.MarkerAudit

/-!
# Substitutions meet no fault

A substitution whose entries fit the generation (`SchemaGraph.Generation.Admits`) has nothing to
fail for but lost markers (`SchemaGraph.Generation.substitute_never_faults`). Each check on the way
guards a step of the rebuilding, and the invariant of the rebuilding says that the step is taken
only where the check passes: a placeholder is an empty slot, and a node is put into it once; an
image is a slot of the new generation; and when the roots are done no node is being rebuilt.

That the recursion ends has to be said apart, since the program bounds it. The bound is not what
ends it (`SchemaGraph.Derivation.rebuildRootsOr_eq`): whatever is done when the bound is reached,
and however large it is, the result is the same. Each level of the recursion puts another node on
the path, so there are no more levels than nodes.
-/

namespace SchemaGraph

namespace Rebuild

variable {α β : Type} {w : Workspace}

/-- Two actions do the same if their first parts do, and go on in the same way from there. -/
theorem bind_congr {x x' : Rebuild α} {k k' : α → Rebuild β} (hx : x w = x' w)
    (hk : ∀ a v, x w = .ok (a, v) → k a v = k' a v) : (x >>= k) w = (x' >>= k') w := by
  change (x w >>= fun out => k out.1 out.2) = (x' w >>= fun out => k' out.1 out.2)
  rw [← hx]
  cases h : x w with
  | error f => rfl
  | ok out => exact hk out.1 out.2 h

/-- Two ways to go through a list are the same if they are at each entry, in every workspace that
comes up. -/
theorem mapM_congr {f f' : α → Rebuild β} {as : List α} (good : Workspace → Prop)
    (hf : ∀ a ∈ as, ∀ w, good w → f a w = f' a w)
    (hkeeps : ∀ a ∈ as, ∀ w, good w → Ends (f a w) (fun _ => True) fun out => good out.2)
    (hw : good w) : as.mapM f w = as.mapM f' w := by
  induction as generalizing w with
  | nil => rfl
  | cons a as ih =>
    rw [List.mapM_cons, List.mapM_cons]
    refine bind_congr (hf a (by simp) w hw) fun b v hv => ?_
    have hgood : good v := (hkeeps a (by simp) w hw).of_eq_ok hv
    refine bind_congr ?_ fun _ _ _ => rfl
    exact ih (fun c hc => hf c (by simp [hc])) (fun c hc => hkeeps c (by simp [hc])) hgood

/-- Children that are replaced in the same way make the same node. -/
theorem mapChildrenM_congr {f f' : Ref → Rebuild Ref} {node : Node} (good : Workspace → Prop)
    (hf : ∀ c ∈ node.children, ∀ w, good w → f c w = f' c w)
    (hkeeps : ∀ c ∈ node.children, ∀ w, good w → Ends (f c w) (fun _ => True) fun out => good out.2)
    (hw : good w) : node.mapChildrenM f w = node.mapChildrenM f' w := by
  cases node with
  | primitive k => rfl
  | enum cases => rfl
  | array items => exact bind_congr (hf items (by simp [Node.children]) w hw) fun _ _ _ => rfl
  | map values => exact bind_congr (hf values (by simp [Node.children]) w hw) fun _ _ _ => rfl
  | object properties =>
    have hmem : ∀ {p}, p ∈ properties → p.type ∈ (Node.object properties).children :=
      fun hp => List.mem_map_of_mem hp
    refine bind_congr (mapM_congr good (fun p hp v hv => ?_) (fun p hp v hv => ?_) hw)
      fun _ _ _ => rfl
    · exact bind_congr (hf _ (hmem hp) v hv) fun _ _ _ => rfl
    · exact ends_bind (hkeeps _ (hmem hp) v hv) fun _ _ h => h
  | union members => exact bind_congr (mapM_congr good hf hkeeps hw) fun _ _ _ => rfl
  | intersection members => exact bind_congr (mapM_congr good hf hkeeps hw) fun _ _ _ => rfl

end Rebuild

namespace Derivation

open Rebuild

variable {d : Derivation} {w : Workspace} {path : List Nat} {r : Ref}

/-! ### The bound of the recursion -/

/-- One level of the recursion, in which `below` visits what is further down. -/
def level (d : Derivation) (below : List Nat → Ref → Rebuild Ref) (path : List Nat) (r : Ref) :
    Rebuild Ref := do
  r.requireSerial d.old.serial
  let old := d.plan.target r
  match (← get).counterparts.find? old.index with
  | some new => return new
  | none =>
    match d.plan.groupAt? old.index with
    | some (number, group) => d.runGroup (below path) number group
    | none =>
      let node ← d.old.nodeAt old.index
      if old.index ∈ path then placeholder old.index
      else
        let node ← node.mapChildrenM (below (old.index :: path))
        d.settle old node

/-- Visiting a node, with `atBound` in place of what is done when the bound is reached. -/
def visitOr (d : Derivation) (atBound : Ref → Rebuild Ref) :
    (depth : Nat) → (path : List Nat) → (r : Ref) → Rebuild Ref
  | 0, _, r => atBound r
  | depth + 1, path, r => d.level (d.visitOr atBound depth) path r

/-- Rebuilding what the roots reach, with the bound `depth` on the recursion and `atBound` in place
of what is done when it is reached. -/
def rebuildRootsOr (d : Derivation) (atBound : Ref → Rebuild Ref) (depth : Nat) : Rebuild Unit :=
  d.old.roots.entries.forM fun (name, root) => do
    let new ← d.visitOr atBound depth [] root
    build (Build.addRoot name new)
    build (Build.addRootAttributes name (d.old.store.ofRoot name))

theorem visit_succ {depth : Nat} : d.visit (depth + 1) path r = d.level (d.visit depth) path r := by
  rw [visit]
  rfl

/-- A level is the same if it visits children in the same way. -/
theorem level_congr {below below' : List Nat → Ref → Rebuild Ref} (hgroups : d.plan.groups = [])
    (h : ∀ node, d.old.node? (d.plan.target r).index = some node →
      w.counterparts.find? (d.plan.target r).index = none → (d.plan.target r).index ∉ path →
        node.mapChildrenM (below ((d.plan.target r).index :: path)) w =
          node.mapChildrenM (below' ((d.plan.target r).index :: path)) w) :
    d.level below path r w = d.level below' path r w := by
  have hgroup : ∀ index, d.plan.groupAt? index = none := fun index => by
    rw [Plan.groupAt?, hgroups, Plan.findGroup?]
  rw [level, level]
  simp only [hgroup]
  cases r.requireSerial d.old.serial with
  | error f => rfl
  | ok u =>
    -- until children are visited, the workspace stays as it is
    refine bind_congr (x := pure u) rfl fun _ v hv => ?_
    obtain ⟨-, rfl⟩ := Prod.mk.inj (Except.ok.inj hv)
    refine bind_congr rfl fun _ v hv => ?_
    obtain ⟨rfl, rfl⟩ := Prod.mk.inj (Except.ok.inj hv)
    cases hc : w.counterparts.find? (d.plan.target r).index with
    | some new => rfl
    | none =>
      dsimp only
      cases hnode : d.old.node? (d.plan.target r).index with
      | none =>
        rw [Generation.nodeAt, hnode]
        rfl
      | some node =>
        rw [Generation.nodeAt_eq_ok_of_node? hnode]
        refine bind_congr (x := pure node) rfl fun _ v hv => ?_
        obtain ⟨rfl, rfl⟩ := Prod.mk.inj (Except.ok.inj hv)
        by_cases hmem : (d.plan.target r).index ∈ path
        · rw [if_pos hmem, if_pos hmem]
        · rw [if_neg hmem, if_neg hmem]
          exact bind_congr (h node hnode hc hmem) fun _ _ _ => rfl

section Plan

variable (hplan : d.plan.fault? d.old.serial = none) (hgroups : d.plan.groups = [])

include hplan hgroups

/-- **The bound of the recursion is never reached**: every level puts another node on the path,
which has no room for more nodes than there are. -/
theorem visit_eq_visitOr {atBound : Ref → Rebuild Ref} {depth depth' : Nat} (hw : d.Grown w)
    (hpath : d.OnPath path w) (hdepth : d.old.size < depth + path.length)
    (hdepth' : d.old.size < depth' + path.length) (hr : d.old.Owns r)
    (hmet : d.old.Visits d.plan.target (d.plan.target r)) :
    d.visit depth path r w = d.visitOr atBound depth' path r w := by
  induction depth generalizing path r w depth' with
  | zero =>
    have := hpath.length_le
    omega
  | succ depth ih =>
    cases depth' with
    | zero =>
      have := hpath.length_le
      omega
    | succ depth' =>
      rw [visit_succ, visitOr]
      refine level_congr hgroups fun node hnode hsettled hmem => ?_
      have hown : d.old.Owns (d.plan.target r) :=
        ⟨Plan.serial_target hplan hr.1, Generation.lt_size_of_node? hnode⟩
      have hcons := hpath.cons hmem hown.2 hsettled
      have hlength : d.old.size < depth + ((d.plan.target r).index :: path).length := by
        rw [List.length_cons]
        omega
      have hlength' : d.old.size < depth' + ((d.plan.target r).index :: path).length := by
        rw [List.length_cons]
        omega
      -- a child is visited in the workspace that the children before it left
      refine mapChildrenM_congr
        (fun v => d.Grown v ∧ d.OnPath ((d.plan.target r).index :: path) v)
        (fun c hc v hv => ?_) (fun c hc v hv => ?_) ⟨hw, hcons⟩
      · exact ih hv.1 hv.2 hlength hlength' (Generation.owns_of_mem_children hnode hc)
          (hmet.child hnode hc)
      · have hends := visit_ends (P := fun _ => True) hplan (fun _ _ _ => trivial) hgroups hv.1 hv.2
          hlength (Generation.owns_of_mem_children hnode hc) (hmet.child hnode hc)
        refine (hends.mono_bad fun _ _ => trivial).mono ?_
        rintro out ⟨hsteps, hpath', -⟩
        exact ⟨hv.1.steps hsteps, hpath'⟩

/-- **What is done at the bound of the recursion makes no difference**, and neither does the bound,
as long as it is more than the number of old nodes. -/
theorem rebuildRootsOr_eq {atBound : Ref → Rebuild Ref} {depth : Nat}
    (hdepth : d.old.size < depth) :
    d.rebuildRootsOr atBound depth d.workspace = d.rebuildRoots d.workspace := by
  have hlist : ∀ rest done w, done ++ rest = d.old.roots.entries → d.Bound done w →
      rest.forM d.rebuildRoot w = rest.forM (fun (e : String × Ref) => (do
        let new ← d.visitOr atBound depth [] e.2
        build (Build.addRoot e.1 new)
        build (Build.addRootAttributes e.1 (d.old.store.ofRoot e.1)) : Rebuild Unit)) w := by
    intro rest
    induction rest with
    | nil => exact fun _ _ _ _ => rfl
    | cons e rest ih =>
      intro done w hall h
      have hmem : e ∈ d.old.roots.entries := by simp [← hall]
      have hname : e.1 ∉ done.map Prod.fst := by
        have hnodup := d.old.roots.nodup
        rw [← hall, List.map_append, List.nodup_append] at hnodup
        exact fun hn => hnodup.2.2 e.1 hn e.1 (by simp) rfl
      have hvisit : d.visitRoot e.2 w = d.visitOr atBound depth [] e.2 w :=
        visit_eq_visitOr hplan hgroups h.grown h.onPath (by simp [hgroups]) (by simpa using hdepth)
          (Generation.owns_of_mem_roots hmem) (.root hmem)
      have hends : Ends (d.rebuildRoot e w) _ fun out => d.Bound (done ++ [e]) out.2 :=
        rebuildRoot_ends (P := fun _ => True) hplan (fun _ _ _ => trivial) hgroups h hmem hname
      refine bind_congr (bind_congr hvisit fun _ _ _ => rfl) fun _ v hv => ?_
      exact ih (done ++ [e]) v (by simp [← hall]) (hends.of_eq_ok hv)
  exact (hlist _ [] _ rfl bound_workspace).symm

end Plan

end Derivation

namespace Generation

variable {g : Generation} {settings : Settings} {map : OrderedMap Ref Ref} {force : Bool}
  {P : AnyKind → Prop}

/-! ### Maps that fit -/

/-- The map can be carried out on the generation: its keys carry the generation's serial number, and
its values are nodes of the generation and none of the keys. -/
structure Admits (g : Generation) (map : OrderedMap Ref Ref) : Prop where
  keys : ∀ {r s}, map.find? r = some s → r.serial = g.serial
  values : ∀ {r s}, map.find? r = some s → g.Owns s
  notKeys : ∀ {r s}, map.find? r = some s → map.find? s = none

theorem Admits.fault?_eq_none (h : g.Admits map) :
    (Plan.substitute map).fault? g.serial = none := by
  refine List.findSome?_eq_none_iff.2 fun e he => ?_
  have hfind : map.find? e.1 = some e.2 := OrderedMap.find?_eq_some_iff.2 he
  have hvalue : map.contains e.2 = false := OrderedMap.contains_eq_false_iff.2 (h.notKeys hfind)
  simp [Plan.entryFault?, h.keys hfind, (h.values hfind).1, hvalue]

/-- Such a substitution stays inside the generation. -/
theorem Admits.faultless (h : g.Admits map) (htypes : OneType P) :
    (g.derivation (.substitute map) settings).Faultless P where
  plan := h.fault?_eq_none
  inRange r hr := by
    change g.Owns ((map.find? r).getD r)
    cases hfind : map.find? r with
    | none => exact hr
    | some s => exact h.values hfind
  types := htypes

/-! ### Substitutions -/

/-- The rebuilding of a substitution runs to a workspace that can be frozen: no slot of it was
forwarded, no placeholder is left, and every slot has its node. -/
theorem exists_builds (htypes : OneType P) (hg : g.store.Among P) (hmap : g.Admits map) :
    ∃ w built, (g.derivation (.substitute map) settings).Builds w built ∧
      w.draft.forwarded = false ∧ (∀ index, w.placeholders.find? index = none) ∧
      ∀ r, ¬w.draft.IsEmptyAt r := by
  have hfaultless : (g.derivation (.substitute map) settings).Faultless P :=
    hmap.faultless htypes
  have hrun := Derivation.run_ends (d := g.derivation (.substitute map) settings) hg rfl
  obtain ⟨w, hw, -, hfinished⟩ := hrun.exists_ok fun _ hnot => hnot hfaultless
  obtain ⟨built, hnew, -⟩ := hfinished.ofDraft_ends.exists_ok fun _ => id
  refine ⟨w, built, ⟨hw, hnew⟩, not_forwarded_of_substitute hfinished, fun index =>
    hfinished.placeholders, fun r hr => ?_⟩
  -- an empty slot is reserved for a node that is being rebuilt
  obtain ⟨index, hindex⟩ := hfinished.grown.sound.empty hr
  simp [hfinished.placeholders] at hindex

/-- A substitution that does anything fails only in the audit, and there is none if provenance is
not tracked. -/
theorem substitute_ends_of_admits (htypes : OneType P) (hg : g.store.Among P)
    (hmap : g.Admits map) (hdo : (map.isEmpty && !force) = false) :
    (g.substitute settings map force).Ends (fun _ => False)
      (fun e => g.options.trackProvenance = true ∧ g.FailsAudit (.substitute map) settings e)
      fun out => ∃ w new, out = .derived new ∧
        (g.derivation (.substitute map) settings).Derives w new := by
  have hfaultless : (g.derivation (.substitute map) settings).Faultless P :=
    hmap.faultless htypes
  cases htrack : g.options.trackProvenance with
  | false =>
    have hends : (g.substitute settings map force).Ends _ (fun _ => False) _ :=
      substitute_ends hg hdo fun w new _ => by
        simp only [lostMarkers?, htrack]
        exact fun e he => absurd he (by simp)
    exact (hends.mono_bad fun _ hnot => hnot hfaultless).mono_lost fun _ => False.elim
  | true =>
    have hends : (g.substitute settings map force).Ends _ (fun _ => True) _ :=
      substitute_ends hg hdo fun w new hnew =>
        (lostMarkers?_ends_of_types htrack hg hnew).mono fun _ _ _ _ => trivial
    refine (((hends.mono_bad fun _ hnot => hnot hfaultless).and
      (substitute_audits htrack hdo)).mono_lost fun e hlost => ?_).mono fun out hout => hout.1
    exact ⟨rfl, hlost.2⟩

/-- **A substitution that fits never meets a fault**, whatever the graph, the map of the kinds and
the order of properties: its rebuilding runs to a workspace in which no slot was forwarded, no
placeholder is left and no slot is empty, and which can be frozen; the recursion ends by itself,
whatever its bound and whatever is done there; and the whole transformation returns the generation
that was built, or the old one if there is nothing to do. The only failure is that of the audit,
with provenance tracked and a marker lost. -/
theorem substitute_never_faults (htypes : OneType P) (hg : g.store.Among P) (hmap : g.Admits map)
    (settings : Settings) (force : Bool) :
    (∃ w built, (g.derivation (.substitute map) settings).Builds w built ∧
      w.draft.forwarded = false ∧ (∀ index, w.placeholders.find? index = none) ∧
      ∀ r, ¬w.draft.IsEmptyAt r) ∧
    (∀ atBound depth, g.size < depth →
      (g.derivation (.substitute map) settings).rebuildRootsOr atBound depth
          (g.derivation (.substitute map) settings).workspace =
        (g.derivation (.substitute map) settings).rebuildRoots
          (g.derivation (.substitute map) settings).workspace) ∧
    (g.substitute settings map force).Ends (fun _ => False)
      (fun e => g.options.trackProvenance = true ∧ g.FailsAudit (.substitute map) settings e)
      fun out => (out = .unchanged ∧ map.isEmpty = true ∧ force = false) ∨
        ∃ w new, out = .derived new ∧
          (g.derivation (.substitute map) settings).Derives w new := by
  refine ⟨exists_builds htypes hg hmap, fun atBound depth hdepth => ?_, ?_⟩
  · exact Derivation.rebuildRootsOr_eq (d := g.derivation (.substitute map) settings)
      hmap.fault?_eq_none rfl hdepth
  · cases hdo : map.isEmpty && !force with
    | false => exact (substitute_ends_of_admits htypes hg hmap hdo).mono fun out => .inr
    | true =>
      rw [substitute, hdo]
      refine Transform.ends_pure (.inl ⟨rfl, ?_⟩)
      simpa using hdo

/-- The list that is part of itself is replaced by its cells, and a node that is not there by the
date. -/
def shortcut : OrderedMap Ref Ref := .ofList [(⟨0, 1⟩, ⟨0, 0⟩), (⟨0, 9⟩, ⟨0, 3⟩)]

theorem admits_shortcut : lists.Admits shortcut := by
  have hentry : ∀ {r s}, shortcut.find? r = some s → r = ⟨0, 1⟩ ∧ s = ⟨0, 0⟩ ∨
      r = ⟨0, 9⟩ ∧ s = ⟨0, 3⟩ := by
    intro r s hfind
    have hmem : (r, s) ∈ [((⟨0, 1⟩ : Ref), (⟨0, 0⟩ : Ref)), (⟨0, 9⟩, ⟨0, 3⟩)] :=
      OrderedMap.find?_eq_some_iff.1 hfind
    simpa using hmem
  refine ⟨fun hfind => ?_, fun hfind => ?_, fun hfind => ?_⟩
  · rcases hentry hfind with ⟨rfl, -⟩ | ⟨rfl, -⟩ <;> rfl
  · rcases hentry hfind with ⟨-, rfl⟩ | ⟨-, rfl⟩ <;> exact ⟨rfl, by decide⟩
  · rcases hentry hfind with ⟨-, rfl⟩ | ⟨-, rfl⟩ <;> rfl

/-- The list is part of itself, and its substitute is being rebuilt when it is met; there is no
fault all the same. -/
theorem substitute_never_faults_lists :
    (lists.substitute ⟨"shortcut", .plain, true, false⟩ shortcut false).Ends (fun _ => False)
      (fun _ => False) fun out => ∃ new, out = .derived new := by
  have hstore : lists.store.Among OwnKind := AttributeStore.among_empty
  obtain ⟨-, -, hends⟩ := substitute_never_faults oneType_ownKind hstore admits_shortcut
    ⟨"shortcut", .plain, true, false⟩ false
  -- nothing else depends on what the transformation is, and it should not be computed
  generalize lists.substitute ⟨"shortcut", .plain, true, false⟩ shortcut false = t at hends ⊢
  refine (hends.mono_lost fun e he => Bool.false_ne_true he.1).mono fun out hout => ?_
  rcases hout with ⟨-, hempty, -⟩ | ⟨_, new, rfl, -⟩
  · exact absurd hempty (by decide)
  · exact ⟨new, rfl⟩

end Generation

end SchemaGraph
