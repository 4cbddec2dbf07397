import SchemaGraph.Proofs.Rebuild.Keeps

/-!
# The kinds of a derived generation

Attributes are merged by the rule of the kind that was there first, so a property of kinds that all
attributes of the old generation have, and all that scripts write, is one of all attributes of the
new generation (`SchemaGraph.Derivation.run_among`), whatever else the scripts do. What a script
writes may depend on what it sees of the new generation; it is only asked of what it writes where
the new generation has the property so far (`SchemaGraph.Script.Writes`).
-/

namespace SchemaGraph

variable {P : AnyKind → Prop}

/-- The attributes that the operation merges into those of a node have the property. -/
def Edit.Writes (P : AnyKind → Prop) : Edit → Prop
  | intern _ attributes _ | annotate _ attributes => attributes.Among P
  | reserve | bindRoot .. | annotateRoot .. => True

/-- The attributes that the script merges into those of nodes have the property, whatever it is
answered. -/
def Script.Writes {α : Type} (P : AnyKind → Prop) : Script α → Prop
  | done _ | failing _ => True
  | visiting _ next => ∀ r, (next r).Writes P
  | editing edit next => edit.Writes P ∧ ∀ answer, (next answer).Writes P
  | inspecting next => ∀ b : Draft, b.store.Among P → (next b).Writes P
  | remarking _ next | declaringLoss next => next.Writes P

/-! ### Operations -/

namespace Build

variable {b : Draft} {bad : Fault → Prop} {node : Node} {attributes : Attributes} {r slot : Ref}

/-- An action that goes on with `k` ends as `k` does in the draft it leaves. -/
theorem ends_bind {α β : Type} {x : Build α} {k : α → Build β} {good : α × Draft → Prop}
    {good' : β × Draft → Prop} (h : Ends (x b) bad good)
    (hk : ∀ a c, good (a, c) → Ends (k a c) bad good') : Ends ((x >>= k) b) bad good' :=
  Ends.bind h fun out hout => hk out.1 out.2 hout

/-- Whatever the action does, the kinds keep the property. -/
def KeepsAmong {α : Type} (P : AnyKind → Prop) (x : Build α) : Prop :=
  ∀ b, b.store.Among P → Ends (x b) (fun _ => True) fun out => out.2.store.Among P

/-- The kinds are read off the attributes. -/
theorem ofEntries_among : Draft.OfEntries fun b => b.store.Among P :=
  fun {_ c} hb hstore _ => show c.store.Among P from hstore ▸ hb

theorem keepsAmong_addAttributes (h : attributes.Among P) :
    (addAttributes r attributes).KeepsAmong P := by
  intro b hb
  rw [addAttributes_eq]
  refine Ends.map (Ends.self.mono fun store hstore => ?_)
  exact (AttributeStore.writes_of_add hstore).among hb h

theorem keepsAmong_mark (hprovenance : P ⟨.markers, .provenance⟩) {index : Nat} :
    (addAttributes r (.singleton .provenance (.singleton index))).KeepsAmong P :=
  keepsAmong_addAttributes fun a ha => by
    obtain rfl := List.mem_singleton.1 ha
    exact hprovenance

theorem keepsAmong_intern {forwarding : Option Ref} (hprovenance : P ⟨.markers, .provenance⟩)
    (h : attributes.Among P) : (intern node attributes forwarding).KeepsAmong P :=
  keeps_intern (fun _ _ => trivial) ofEntries_among.tolerates (fun _ _ _ _ => trivial)
    (fun _ => keepsAmong_addAttributes h)
    fun _ _ => keepsAmong_mark hprovenance

/-- Roots have attributes of their own. -/
theorem keepsAmong_addRootAttributes {root : String} :
    (addRootAttributes root attributes).KeepsAmong P := by
  intro b hb
  unfold addRootAttributes AttributeStore.addRoot
  split
  · exact hb
  · cases Attributes.mergeFound (b.store.roots.find? root) attributes with
    | error f => trivial
    | ok merged => exact hb

theorem keepsAmong_addRoot {root : String} : (addRoot root r).KeepsAmong P := by
  intro b hb
  unfold addRoot Ref.requireSerial
  split
  · dsimp only [bind, Except.bind]
    split
    · split
      · exact hb
      · trivial
    · exact hb
  · trivial

end Build

theorem Edit.keepsAmong_run (hprovenance : P ⟨.markers, .provenance⟩) {edit : Edit}
    (h : edit.Writes P) : edit.run.KeepsAmong P := by
  cases edit with
  | reserve => exact fun _ hb => hb
  | intern node attributes forwarding => exact Build.keepsAmong_intern hprovenance h
  | annotate r attributes => exact Build.keepsAmong_addAttributes h
  | bindRoot root r => exact Build.keepsAmong_addRoot
  | annotateRoot root attributes => exact Build.keepsAmong_addRootAttributes

/-! ### Rebuilding -/

namespace Rebuild

/-- Whatever the action does, the kinds keep the property. -/
def KeepsAmong {α : Type} (P : AnyKind → Prop) (x : Rebuild α) : Prop :=
  ∀ w, w.draft.store.Among P → Ends (x w) (fun _ => True) fun out => out.2.draft.store.Among P

variable {α : Type}

/-- **A script keeps the kinds if it writes only those**, and its visits keep them. The induction is
on the script. -/
theorem keepsAmong_runScript {visit : Ref → Rebuild Ref} (hprovenance : P ⟨.markers, .provenance⟩)
    (hvisit : ∀ r, (visit r).KeepsAmong P) {script : Script α} (h : script.Writes P) :
    (runScript visit script).KeepsAmong P := by
  induction script with
  | done result => exact keeps_pure
  | visiting old next ih => exact Keeps.bind (hvisit old) fun r => ih r (h r)
  | editing edit next ih =>
    exact (keepsDraft_build (edit.keepsAmong_run hprovenance h.1)).bind fun a => ih a (h.2 a)
  | inspecting next ih => exact keeps_get_bind fun w hw => ih w.draft (h w.draft hw)
  | remarking ref next ih => exact Keeps.bind (keeps_modify fun _ hw => hw) fun _ => ih h
  | declaringLoss next ih => exact Keeps.bind (keeps_modify fun _ hw => hw) fun _ => ih h
  | failing fault => exact fun _ _ => trivial

end Rebuild

namespace Derivation

open Rebuild

variable {d : Derivation} {w : Workspace} {group : Group} {number : Nat}

section Plan

variable (hprovenance : P ⟨.markers, .provenance⟩)
  (hscripts : ∀ group ∈ d.plan.groups, ∀ slot, (group.script slot).Writes P)
  (hplan : d.plan.fault? d.old.serial = none) (hold : d.old.store.Among P)

include hprovenance

include hscripts in
theorem keepsAmong_runGroup {visit : Ref → Rebuild Ref} (hvisit : ∀ r, (visit r).KeepsAmong P)
    (hgroup : group ∈ d.plan.groups) : (d.runGroup visit number group).KeepsAmong P :=
  keepsDraft_runGroup (fun _ _ => trivial) Build.ofEntries_among.tolerates fun slot =>
    keepsAmong_runScript hprovenance hvisit (hscripts group hgroup slot)

include hscripts hplan hold

theorem keepsAmong_visit (depth : Nat) (path : List Nat) (r : Ref) :
    (d.visit depth path r).KeepsAmong P := by
  refine keepsDraft_visit (fun _ _ => trivial) Build.ofEntries_among.tolerates (fun old _ _ _ _ => ?_)
    (fun visit hvisit group hgroup slot =>
      keepsAmong_runScript hprovenance hvisit (hscripts group hgroup slot)) depth path r
  refine keepsDraft_settle (fun _ _ => trivial) Build.ofEntries_among.tolerates
    (fun _ _ _ _ => trivial) ?_ fun _ _ => Build.keepsAmong_mark hprovenance
  exact ((attributes_ends hplan hold old).mono_bad fun _ _ => trivial).mono fun _ hamong _ =>
    Build.keepsAmong_addAttributes hamong

theorem keepsAmong_rebuildAll : d.rebuildAll.KeepsAmong P := by
  have hvisit : ∀ r, (d.visitRoot r).KeepsAmong P :=
    keepsAmong_visit hprovenance hscripts hplan hold _ _
  have hkeeps : KeepsDraft (fun _ => True) (fun b => b.store.Among P) d.rebuildAll :=
    keepsDraft_rebuildAll (fun _ _ => trivial) hvisit
      (fun _ _ hgroup => keepsAmong_runGroup hprovenance hscripts hvisit hgroup)
      (fun _ _ => Build.keepsAmong_addRoot) fun _ _ => Build.keepsAmong_addRootAttributes
  exact hkeeps

end Plan

/-- **The attributes of the new generation have what those of the old one have**, and what the
scripts write. -/
theorem run_among (hprovenance : P ⟨.markers, .provenance⟩) (hold : d.old.store.Among P)
    (hscripts : ∀ group ∈ d.plan.groups, ∀ slot, (group.script slot).Writes P)
    (h : d.run = .ok w) : w.draft.store.Among P := by
  rw [run] at h
  cases hplan : d.plan.fault? d.old.serial with
  | some f =>
    rw [hplan] at h
    cases h
  | none =>
    rw [hplan] at h
    have hempty : d.workspace.draft.store.Among P := AttributeStore.among_empty
    have hall := keepsAmong_rebuildAll hprovenance hscripts hplan hold d.workspace hempty
    have hrun : Ends (d.rebuildAll.run d.workspace >>= fun out => pure out.2) (fun _ => True)
        fun w => w.draft.store.Among P := hall.bind fun _ hout => hout
    exact hrun.of_eq_ok h

end Derivation

end SchemaGraph
