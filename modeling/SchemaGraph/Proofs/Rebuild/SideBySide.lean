import SchemaGraph.Proofs.Deriving
import SchemaGraph.Proofs.InStep
import SchemaGraph.Proofs.Rebuild.Groups

/-!
# Derivations side by side

Two derivations from one generation that rebuild the same nodes, with attributes that go together, are
in step all the way (`SchemaGraph.Derivation.run_concur`), and so is all that a transformation does
besides (`SchemaGraph.Generation.derive_goOn`). How the plans are written down does not come into it:
they are asked for the target and the group of a node, and nothing else.
-/

namespace SchemaGraph

variable {lee : Leeway} {drafts : Draft → Draft → Prop} {merged : Attributes → Attributes → Prop}

/-- Operations on drafts that go together are in step, also where they merge attributes that go
together. -/
structure Draft.Steps (lee : Leeway) (drafts : Draft → Draft → Prop)
    (merged : Attributes → Attributes → Prop) : Prop where
  edit : ∀ edit : Edit, InStep lee.faults drafts edit.run edit.run
  forward : ∀ r target, InStep lee.faults drafts (Build.forward r target) (Build.forward r target)
  intern : ∀ node forwarding {s t}, merged s t →
    InStep lee.faults drafts (Build.intern node s forwarding) (Build.intern node t forwarding)
  define : ∀ r node {s t}, merged s t →
    InStep lee.faults drafts (Build.define r node s) (Build.define r node t)
  forwarded : ∀ {b c}, drafts b c → b.forwarded = c.forwarded

namespace Derivation

open Rebuild

variable {d e : Derivation}

/-- The derivations start from one generation, rebuild the same nodes in place of others, and give them
attributes that go together. -/
structure Parallel (lee : Leeway) (merged : Attributes → Attributes → Prop) (d e : Derivation) : Prop where
  old : e.old = d.old
  target : ∀ r, e.plan.target r = d.plan.target r
  folds : e.plan.foldsCycles = d.plan.foldsCycles
  length : e.plan.groups.length = d.plan.groups.length
  group : ∀ index, (d.plan.groupAt? index).map Prod.snd = (e.plan.groupAt? index).map Prod.snd
  attributes : ∀ r, Concur lee.faults merged (d.attributes r) (e.attributes r)

/-- What is left to do when the roots are done. -/
def finishing (d : Derivation) : Rebuild Unit := do
  (d.pendingGroups (← get)).forM fun (group, number) => do
    let _ ← d.runGroup d.visitRoot number group
  unless (← get).placeholders.isEmpty do throw .placeholdersLeft

theorem rebuildAll_eq : d.rebuildAll = (do
    d.rebuildRoots
    d.finishing) := rfl

/-- Without groups left, there is nothing to do but to look whether a slot is open. -/
theorem finishing_concur {w w' : Workspace} (h : w.GoWith lee drafts w') (hnone : d.pendingGroups w = [])
    (hnone' : e.pendingGroups w' = []) :
    Concur lee.faults (fun out out' => out.1 = out'.1 ∧ Workspace.GoWith lee drafts out.2 out'.2)
      (d.finishing w) (e.finishing w') := by
  let finished (v v' : Workspace) : Prop :=
    v.GoWith lee drafts v' ∧ d.pendingGroups v = [] ∧ e.pendingGroups v' = []
  have hstep : InStep lee.faults finished d.finishing e.finishing := by
    refine inStep_get_bind fun v v' hv => ?_
    rw [hv.2.1, hv.2.2]
    refine InStep.bind inStep_pure fun _ => inStep_get_bind fun u u' hu => ?_
    rw [← hu.1.placeholders]
    split
    · exact inStep_pure
    · exact inStep_throw (lee.faults_refl _)
  exact (hstep w w' ⟨h, hnone, hnone'⟩).mono fun _ _ hout => ⟨hout.1, hout.2.1⟩

section Parallel

variable (h : d.Parallel lee merged e) (hsteps : Draft.Steps lee drafts merged)

include h hsteps

theorem goOn_settle (old : Ref) (node : Node) :
    GoOn lee drafts (d.settle old node) (e.settle old node) := by
  rw [settle, settle]
  refine inStep_lift_bind (h.attributes old) fun s t hst => goOn_takePlaceholder.bind fun found => ?_
  have hlast : ∀ {x y : Rebuild Ref}, GoOn lee drafts x y → GoOn lee drafts
      (do
        let new ← x
        setCounterpart old.index new
        return new)
      (do
        let new ← y
        setCounterpart old.index new
        return new) := fun hxy =>
    hxy.bind fun _ => goOn_setCounterpart.bind fun _ => inStep_pure
  cases found with
  | none => exact hlast (goOn_build (hsteps.intern node none hst))
  | some slot =>
    dsimp only
    rw [h.folds]
    split
    · exact hlast (goOn_build (hsteps.intern node (some slot) hst))
    · exact (goOn_build (hsteps.define slot node hst)).bind fun _ => hlast inStep_pure

/-- What is asked of replacing a group: it is in step if the visits of its script are. -/
def GroupsGoOn (lee : Leeway) (drafts : Draft → Draft → Prop) (d e : Derivation) : Prop :=
  ∀ {visit visit' : Ref → Rebuild Ref}, (∀ r, GoOn lee drafts (visit r) (visit' r)) →
    ∀ number number', ∀ group ∈ d.plan.groups,
      GoOn lee drafts (d.runGroup visit number group) (e.runGroup visit' number' group)

/-- **Visits are in step.** The induction is on the depth. -/
theorem goOn_visit (hgroups : d.GroupsGoOn lee drafts e) (depth : Nat) (path : List Nat) (r : Ref) :
    GoOn lee drafts (d.visit depth path r) (e.visit depth path r) := by
  induction depth generalizing path r with
  | zero => exact goOn_placeholder (hsteps.edit .reserve)
  | succ depth ih =>
    rw [visit, visit, h.old, h.target]
    refine inStep_lift_bind (concur_self lee.faults_refl) fun _ _ _ => inStep_get_bind fun w w' hw => ?_
    rw [← hw.counterparts]
    split
    · exact inStep_pure
    · have hgroup := h.group (d.plan.target r).index
      cases hfound : d.plan.groupAt? (d.plan.target r).index with
      | some found =>
        obtain ⟨number, group⟩ := found
        rw [hfound] at hgroup
        obtain ⟨⟨number', _⟩, hfound', rfl⟩ := Option.map_eq_some_iff.1 hgroup.symm
        rw [hfound']
        obtain ⟨j, -, hj, -⟩ := Plan.exists_of_findGroup? hfound
        exact hgroups (ih path) number number' _ (List.mem_of_getElem? hj)
      | none =>
        rw [hfound] at hgroup
        rw [Option.map_eq_none_iff.1 hgroup.symm]
        refine inStep_lift_bind (concur_self lee.faults_refl) fun node _ hnode => ?_
        subst hnode
        split
        · exact goOn_placeholder (hsteps.edit .reserve)
        · exact (inStep_mapChildrenM (ih _)).bind fun node => goOn_settle h hsteps _ node

theorem goOn_rebuildRoots (hgroups : d.GroupsGoOn lee drafts e) :
    GoOn lee drafts d.rebuildRoots e.rebuildRoots := by
  have hvisit : ∀ r, GoOn lee drafts (d.visitRoot r) (e.visitRoot r) := fun r => by
    rw [visitRoot, visitRoot, h.old, h.length]
    exact goOn_visit h hsteps hgroups _ _ r
  rw [rebuildRoots, rebuildRoots, h.old]
  refine inStep_forM fun root _ => (hvisit root.2).bind fun new => ?_
  refine (goOn_build (hsteps.edit (.bindRoot root.1 new))).bind fun _ => ?_
  exact goOn_build (hsteps.edit (.annotateRoot root.1 _))

/-- **Whole derivations are in step**, if no group is left when the roots are done. -/
theorem run_concur (hfits : d.plan.fault? d.old.serial = none) (hfits' : e.plan.fault? d.old.serial = none)
    (hgroups : d.GroupsGoOn lee drafts e)
    (hstart : drafts d.workspace.draft e.workspace.draft)
    (hpending : ∀ w w', d.rebuildRoots d.workspace = .ok ((), w) → w.GoWith lee drafts w' →
      d.pendingGroups w = [] ∧ e.pendingGroups w' = []) :
    Concur lee.faults (Workspace.GoWith lee drafts) d.run e.run := by
  have hroots := (goOn_rebuildRoots h hsteps hgroups) d.workspace e.workspace
    ⟨hstart, rfl, rfl, rfl, lee.events_refl _⟩
  have hall : Concur lee.faults
      (fun out out' => out.1 = out'.1 ∧ Workspace.GoWith lee drafts out.2 out'.2)
      (d.rebuildAll d.workspace) (e.rebuildAll e.workspace) := by
    rw [rebuildAll_eq, rebuildAll_eq]
    refine Concur.bind hroots.with_eq ?_
    rintro ⟨⟨⟩, w⟩ ⟨⟨⟩, w'⟩ ⟨hw, -, -, hgo⟩
    obtain ⟨hnone, hnone'⟩ := hpending w w' hw hgo
    exact finishing_concur hgo hnone hnone'
  rw [run, run, hfits, h.old, hfits']
  exact hall.bind fun _ _ hout => hout.2

end Parallel

end Derivation

namespace Generation

variable {g h k : Generation} {settings : Settings}

/-- Two generations that can be listed alike, or none of them, are printed in step. -/
theorem goOn_printing {α β : Type} {results : α → β → Prop} {title moment : String}
    {x : Unit → Transform α} {y : Unit → Transform β} (printing : Bool) (hserial : h.serial = k.serial)
    (hlisting : Concur lee.faults lee.texts h.listing k.listing)
    (hxy : Transform.GoOn lee results (x ()) (y ())) :
    Transform.GoOn lee results (if printing then h.printListing title moment >>= x else x ())
      (if printing then k.printListing title moment >>= y else y ()) := by
  cases printing with
  | false => exact hxy
  | true =>
    have hshown : Transform.GoOn lee Eq (h.printListing title moment) (k.printListing title moment) := by
      rw [printListing, printListing, hserial]
      refine (Transform.goOn_print (lee.texts_refl _)).bind fun _ _ _ => ?_
      exact (Transform.goOn_ofExcept hlisting).bind fun _ _ htext => Transform.goOn_print htext
    exact hshown.bind fun _ _ _ => hxy

/-- **A derivation is in step with another one of the same settings** if their rebuildings are, and
generations that go together are listed and audited alike. -/
theorem derive_goOn {plan plan' : Plan} {accept : Workspace → Except Fault Unit}
    {same : Generation → Generation → Prop}
    (hrun : Concur lee.faults (Workspace.GoWith lee drafts) (g.derivation plan settings).run
      (g.derivation plan' settings).run)
    (haccept : ∀ w w', w.GoWith lee drafts w' → Concur lee.faults Eq (accept w) (accept w'))
    (hforwarded : ∀ b c, drafts b c → b.forwarded = c.forwarded)
    (hfreeze : ∀ b c, drafts b c → Concur lee.faults (fun h k =>
      same { h with announced := g.announced } { k with announced := g.announced })
        (ofDraft b) (ofDraft c))
    (hserial : ∀ h k, same h k → h.serial = k.serial)
    (hlisting : ∀ h k, same h k → Concur lee.faults lee.texts h.listing k.listing)
    (haudit : ∀ h k, same h k →
      Concur lee.faults Eq (g.lostMarkers? h settings.title) (g.lostMarkers? k settings.title)) :
    (g.derive plan settings accept).GoOn lee (fun out out' => same out.1 out'.1 ∧ out.2 = out'.2)
      (g.derive plan' settings accept) := by
  have hself : Concur lee.faults lee.texts g.listing g.listing :=
    (concur_self lee.faults_refl).mono fun _ _ htext => htext ▸ lee.texts_refl _
  rw [derive, derive]
  refine goOn_printing (settings.announce || g.announced) rfl hself ?_
  refine (Transform.goOn_ofExcept hrun).bind fun w w' hw => ?_
  refine (Transform.goOn_ofExcept (haccept w w' hw)).bind fun _ _ _ => ?_
  refine (Transform.goOn_record hw.journal).bind fun _ _ _ => ?_
  refine (Transform.goOn_ofExcept (hfreeze _ _ hw.draft)).bind fun h k hsame => ?_
  refine goOn_printing (settings.announce || g.announced) (hserial _ _ hsame) (hlisting _ _ hsame) ?_
  dsimp only
  rw [← hw.lossDeclared]
  split
  · exact Transform.goOn_pure ⟨hsame, hforwarded _ _ hw.draft⟩
  · refine (Transform.goOn_ofExcept (haudit _ _ hsame)).bind fun lost _ hlost => ?_
    subst hlost
    cases lost with
    | none => exact Transform.goOn_pure ⟨hsame, hforwarded _ _ hw.draft⟩
    | some e => exact Transform.goOn_throw.bind fun _ _ => False.elim

end Generation

end SchemaGraph
