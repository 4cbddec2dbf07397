import SchemaGraph.Proofs.Deriving

/-!
# What a substitution makes of a generation

A substitution rebuilds the nodes that are met from the roots when every reference is first
sent through the map. Whenever it returns a generation, that generation is the image of those
nodes under one function that respects the map, children and roots, whatever cycles the old
generation has. Collecting unreachable nodes is the case of the empty map.

Nodes on cycles are stored while some of their children are placeholders still; they are never
folded into others in a substitution, so a placeholder always becomes the node it was reserved
for.
-/

namespace SchemaGraph

namespace Generation

variable {g : Generation} {settings : Settings} {map : OrderedMap Ref Ref} {force : Bool}

/-- A substitution never folds a node on a cycle into another one, so it never objects to the
finished workspace. -/
theorem not_forwarded_of_substitute {w : Workspace}
    (h : (g.derivation (.substitute map) settings).Finished w) : w.draft.forwarded = false := by
  cases hf : w.draft.forwarded with
  | false => rfl
  | true => exact absurd (h.grown.sound.folds hf) (by simp [derivation, Plan.foldsCycles])

/-- A substitution that does anything returns the rebuilt generation. -/
theorem substitute_ends {P : AnyKind → Prop} {lost : LostMarkers → Prop}
    (hg : g.store.Among P) (hdo : (map.isEmpty && !force) = false)
    (hlost : ∀ w new, (g.derivation (.substitute map) settings).Derives w new →
      Ends (g.lostMarkers? new settings.title)
        (fun _ => ¬(g.derivation (.substitute map) settings).Faultless P)
        fun found => ∀ e ∈ found, lost e) :
    (g.substitute settings map force).Ends
      (fun _ => ¬(g.derivation (.substitute map) settings).Faultless P) lost fun out =>
        ∃ w new, out = .derived new ∧ (g.derivation (.substitute map) settings).Derives w new := by
  rw [substitute]
  rw [hdo]
  refine (derive_ends hg rfl (fun w hw => ?_) hlost).bind ?_
  · rw [not_forwarded_of_substitute hw]
    rfl
  · rintro ⟨new, forwarded⟩ ⟨w, hw, -⟩
    exact Transform.ends_pure ⟨w, new, rfl, hw⟩

/-- **A substitution returns the image of its generation.** There is a function on references
that sends a substituted node where its substitute goes, such that the new roots are the images
of the old ones, each node that is met is stored at its image with its children replaced by
their images and brought into canonical form, and every node of the new generation is such an
image and is reached from its roots. -/
theorem substitute_returns_image {new : Generation}
    (h : (g.substitute settings map force).Returns (.derived new)) :
    ∃ φ : Ref → Ref,
      (∀ s t, map.find? s = some t → φ s = φ t) ∧
      new.roots.entries = g.roots.entries.map (fun e => (e.1, φ e.2)) ∧
      (∀ r, g.Visits (Plan.substitute map).target r →
        ∃ node, g.node? r.index = some node ∧ new.Reaches (φ r) ∧
          new.node? (φ r).index =
            some ((node.mapChildren φ).canonical settings.mapping settings.alphabetize)) ∧
      (∀ s, new.Owns s → new.Reaches s ∧ ∃ r, g.Visits (Plan.substitute map).target r ∧ φ r = s) := by
  -- otherwise nothing would have been done
  have hdo : (map.isEmpty && !force) = false := by
    by_contra hnot
    obtain ⟨log, log', hrun⟩ := h
    rw [Bool.not_eq_false] at hnot
    rw [substitute] at hrun
    rw [hnot] at hrun
    cases hrun
  have hends : (g.substitute settings map force).Ends _ (fun _ => True) _ :=
    substitute_ends (P := fun _ => True) (fun _ _ _ => trivial) hdo fun _ _ _ =>
      Ends.of_forall (fun _ h => not_oneType_true h.types) fun _ _ _ => trivial
  obtain ⟨w, new', heq, hnew⟩ := hends.of_returns h
  obtain rfl := Outcome.derived.inj heq
  have hforwarded := not_forwarded_of_substitute hnew.finished
  refine ⟨(g.derivation (.substitute map) settings).imageOf w, fun s t hst => ?_, ?_,
    fun r hr => ?_, fun s hs => ?_⟩
  · have himage := hnew.imageOf_target (r := s)
    change (g.derivation (.substitute map) settings).imageOf w ((map.find? s).getD s) = _ at himage
    rw [← himage, hst, Option.getD_some]
  · rw [hnew.roots, hnew.finished.roots]
    rfl
  · obtain ⟨node, hnode, himage⟩ := hnew.node_of_direct hforwarded hr
    exact ⟨node, hnode, hnew.reaches hr, himage⟩
  · obtain ⟨r, hr, rfl⟩ := hnew.exists_image hs
    exact ⟨hnew.reaches hr, r, hr, rfl⟩

/-- A recursive list of strings, and a date that is not part of it. -/
def lists : Generation where
  options := ⟨false⟩
  nodes := #[.object [⟨"tail", ⟨0, 1⟩, true⟩, ⟨"head", ⟨0, 2⟩, false⟩], .array ⟨0, 0⟩,
    .primitive .string, .primitive .date]
  store := .empty 0
  roots := .ofList [("top", ⟨0, 0⟩)]
  announced := false
  children_inBounds := by decide
  roots_inBounds := by decide

/-- With the date in place of the string, the recursive list has three nodes again, and its head
is what the kind of dates is sent to. -/
theorem substitute_lists :
    ∃ new, (lists.substitute ⟨"substitute", .plain, false, false⟩
        (.ofList [(⟨0, 2⟩, ⟨0, 3⟩)]) false).Returns (.derived new) ∧ new.nodes.size = 3 ∧
      ∃ φ : Ref → Ref, φ ⟨0, 2⟩ = φ ⟨0, 3⟩ ∧ new.roots.entries = [("top", φ ⟨0, 0⟩)] ∧
        new.node? (φ ⟨0, 1⟩).index = some (.array (φ ⟨0, 0⟩)) := by
  have hpasses : (lists.substitute ⟨"substitute", .plain, false, false⟩
      (.ofList [(⟨0, 2⟩, ⟨0, 3⟩)]) false).passes
        (fun out _ => (out.after lists).nodes.size = 3) = true := by decide +kernel
  obtain ⟨out, log, hrun, htest⟩ := Transform.exists_of_passes hpasses
  cases out with
  | unchanged => exact absurd htest (by decide)
  | derived new =>
    have hreturns : (lists.substitute ⟨"substitute", .plain, false, false⟩
        (.ofList [(⟨0, 2⟩, ⟨0, 3⟩)]) false).Returns (.derived new) := ⟨_, _, hrun⟩
    obtain ⟨φ, hmap, hroots, hnode, -⟩ := substitute_returns_image hreturns
    refine ⟨new, hreturns, of_decide_eq_true htest, φ, hmap _ _ (by decide), hroots, ?_⟩
    have htop : ("top", (⟨0, 0⟩ : Ref)) ∈ lists.roots.entries := by decide
    have hlist : lists.Visits (Plan.substitute (.ofList [(⟨0, 2⟩, ⟨0, 3⟩)])).target ⟨0, 0⟩ :=
      .root htop
    have hchild : (⟨0, 1⟩ : Ref) ∈
        (Node.object [⟨"tail", ⟨0, 1⟩, true⟩, ⟨"head", ⟨0, 2⟩, false⟩]).children := by decide
    have harray : lists.Visits (Plan.substitute (.ofList [(⟨0, 2⟩, ⟨0, 3⟩)])).target ⟨0, 1⟩ :=
      hlist.child rfl hchild
    obtain ⟨node, hold, -, hnew⟩ := hnode _ harray
    obtain rfl : Node.array ⟨0, 0⟩ = node := Option.some.inj hold
    exact hnew

end Generation

end SchemaGraph
