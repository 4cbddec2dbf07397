import SchemaGraph.Proofs.Condensing

/-!
# Rebuilding keeps the meaning of a graph

A generation is the image of another one (`SchemaGraph.Generation.IsImage`) if its reachable nodes
are theirs under one function that respects roots and children, and is else only brought into
canonical form. Such functions compose (`SchemaGraph.Generation.IsImage.trans`).

A graph without intersections is rebuilt to an image of itself, because rebuilding merges nodes
(`SchemaGraph.Generation.Rebuilds.exists_merges`) and it skips nothing but intersections. The removal
of the indirections that were left on the way cannot fail: each of them is the only link of its
chain, as no node is stored where an indirection would be one.
-/

namespace SchemaGraph

namespace Generation

variable {g mid new : Generation} {φ ψ : Ref → Ref} {r s : Ref} {m : StringMapping} {a : Bool}

/-! ### Images -/

/-- The reachable nodes of `new` are those of `g` under `φ`, which respects roots and children,
with nodes brought into canonical form. -/
structure IsImage (g new : Generation) (φ : Ref → Ref) (mapping : StringMapping)
    (alphabetize : Bool) : Prop where
  roots : new.roots.entries = g.roots.entries.map fun e => (e.1, φ e.2)
  reaches : ∀ {r}, g.Reaches r → new.Reaches (φ r)
  node : ∀ {r n}, g.Reaches r → g.node? r.index = some n →
    new.node? (φ r).index = some ((n.mapChildren φ).canonical mapping alphabetize)
  onto : ∀ {s}, new.Reaches s → ∃ r, g.Reaches r ∧ φ r = s

/-- **Images of images are images**; kinds are mapped in the first step only. -/
theorem IsImage.trans (h : g.IsImage mid φ m a) (h' : mid.IsImage new ψ .preserving a) :
    g.IsImage new (ψ ∘ φ) m a where
  roots := by
    rw [h'.roots, h.roots, List.map_map]
    rfl
  reaches hr := h'.reaches (h.reaches hr)
  node hr hn := by
    rw [Function.comp_apply, h'.node (h.reaches hr) (h.node hr hn),
      Node.mapChildren_canonical_mapChildren]
  onto hs := by
    obtain ⟨t, ht, rfl⟩ := h'.onto hs
    obtain ⟨r, hr, rfl⟩ := h.onto ht
    exact ⟨r, hr, rfl⟩

/-! ### Graphs without intersections -/

/-- No node that can be reached is an intersection. -/
def NoIntersections (g : Generation) : Prop :=
  ∀ r n, g.Reaches r → g.node? r.index = some n → n.kind ≠ .intersection

theorem IsImage.noIntersections (h : g.IsImage new φ m a) (hg : g.NoIntersections) :
    new.NoIntersections := by
  intro s n hs hn
  obtain ⟨r, hr, rfl⟩ := h.onto hs
  obtain ⟨old, hold⟩ := hr.owns.exists_node
  obtain rfl := Option.some.inj ((h.node hr hold).symm.trans hn)
  rw [Ne, Node.kind_canonical_eq_intersection_iff, Node.kind_mapChildren]
  exact hg r old hr hold

section Rebuilding

variable {settings : Settings} {w : Workspace}
  (hmid : (g.derivation (.replace []) settings).Derives w mid) (hg : g.NoIntersections)

include hmid hg

/-- In what a graph without intersections is rebuilt to, no place has an indirection. -/
theorem not_isIndirection_of_livesAt {home : Ref} (hr : g.Reaches r)
    (hhome : (g.derivation (.replace []) settings).LivesAt w r home) :
    ¬mid.IsIndirection home := by
  obtain ⟨n, hn, -, hstored, -⟩ := hmid.node_of_livesAt hr hhome
  -- the old node would have been an intersection
  rintro ⟨-, t, ht⟩
  have hkind := congrArg Node.kind (Option.some.inj (hstored.symm.trans ht))
  refine hg r n hr hn ?_
  rw [← Node.kind_mapChildren, ← Node.kind_canonical_eq_intersection_iff]
  exact hkind

/-- Every indirection that is left is the last of its chain. -/
theorem not_indirectionsCycle : ¬mid.IndirectionsCycle := by
  rintro ⟨graph, hgraph, hcyclic⟩
  have hedges := chains_ends.of_eq_ok hgraph
  have hnone : graph.edges = [] := by
    refine List.eq_nil_iff_forall_not_mem.2 fun e he => ?_
    obtain ⟨s, t⟩ := e
    obtain ⟨hlookup, ht⟩ := (hedges s t).1 he
    obtain ⟨hs, hnode⟩ := lookup_indirections.1 hlookup
    obtain ⟨r, hr, rfl⟩ := hmid.exists_image hs.owns
    -- the first link of a chain leads to a place, where no second one starts
    obtain ⟨home, hhome⟩ := hmid.exists_livesAt hr
    obtain ⟨-, -, hreach, -, hleads⟩ := hmid.node_of_livesAt hr hhome
    have hnot := not_isIndirection_of_livesAt hmid hg hr hhome
    rcases hleads with heq | ⟨-, hleads⟩
    · exact hnot ⟨hreach, t, heq ▸ hnode⟩
    · have heq : Node.indirection home = Node.indirection t :=
        Option.some.inj (hleads.symm.trans hnode)
      have hsame : home = t := by
        have hchildren := congrArg Node.children heq
        simpa using hchildren
      exact hnot (hsame ▸ mem_fst_indirections.1 ht)
  simp [Digraph.isCyclic, hnone] at hcyclic

end Rebuilding

/-- Where no node is an intersection, none is skipped. -/
theorem Condenses.isImage (h : g.Condenses new id φ m a) (hg : g.NoIntersections) :
    g.IsImage new φ m a where
  roots := h.roots
  reaches hr := h.reaches_iff.2 ⟨_, hr, rfl⟩
  node {r n} hr hn := by
    obtain ⟨n', hn', hnode⟩ := h.node hr
    obtain rfl := Option.some.inj (hn'.symm.trans hn)
    exact hnode.resolve_right fun hskipped => hg r n' hr hn' hskipped.1
  onto hs := h.reaches_iff.1 hs

/-- **A graph without intersections is rebuilt to an image of itself.** -/
theorem Rebuilds.exists_isImage {settings : Settings} (h : g.Rebuilds settings new)
    (hg : g.NoIntersections) :
    ∃ φ, g.IsImage new φ settings.mapping settings.alphabetize := by
  obtain ⟨φ, hφ⟩ := h.exists_merges
  exact ⟨φ, hφ.toCondenses.isImage hg⟩

/-! ### The statement -/

variable {P : AnyKind → Prop} {alphabetize announce : Bool}

/-- A graph without intersections is rebuilt without a fault. -/
theorem replace_ends_of_noIntersections {settings : Settings} (hP : OneType P)
    (hstore : g.store.Among P) (hg : g.NoIntersections) :
    (g.replace settings [] true).Ends (fun _ => False) (fun _ => g.MayLoseMarkers P)
      fun out => ∃ new, out = .derived new ∧ g.Rebuilds settings new := by
  refine (replace_ends hstore).mono_bad ?_
  rintro f (hnot | ⟨-, w, mid, hmid, -, hcycle⟩)
  · exact hnot hP
  · exact not_indirectionsCycle hmid hg hcycle

/-- **Rebuilding keeps the meaning of a graph.** If no node that can be reached is an
intersection and the names of attributes have one type each, a replacement without groups meets
no fault, and so does rebuilding until nothing shrinks. Both can only fail by losing markers,
which takes a foreign attribute kind under the name of provenance, and what they return is an
image of the graph, without intersections again. -/
theorem rebuilding_preserves_meaning (hP : OneType P) (hstore : g.store.Among P)
    (hg : g.NoIntersections) (settings : Settings) (alphabetize announce : Bool) :
    (g.replace settings [] true).Ends (fun _ => False) (fun _ => g.MayLoseMarkers P)
      (fun out => ∃ new φ, out = .derived new ∧
        g.IsImage new φ settings.mapping settings.alphabetize ∧ new.NoIntersections) ∧
    (g.settle alphabetize announce).Ends (fun _ => False) (fun _ => g.MayLoseMarkers P)
      (fun new => ∃ φ, g.IsImage new φ .preserving alphabetize ∧ new.NoIntersections) := by
  constructor
  · refine (replace_ends_of_noIntersections hP hstore hg).mono ?_
    rintro out ⟨new, rfl, hnew⟩
    obtain ⟨φ, hφ⟩ := hnew.exists_isImage hg
    exact ⟨new, φ, rfl, hφ, hφ.noIntersections hg⟩
  · -- a rebuilt graph is an image of `g`, because the one before was, or was `g` itself
    let kept (h : Generation) : Prop := h.store.Among P ∧ h.NoIntersections ∧
      h.options = g.options ∧ (h = g ∨ ∃ φ, g.IsImage h φ .preserving alphabetize)
    have himage : ∀ {last new}, kept last →
        last.Rebuilds (fixedPoint alphabetize announce) new →
          ∃ φ, g.IsImage new φ .preserving alphabetize := by
      rintro last new ⟨-, hlast, -, hbefore⟩ hnew
      obtain ⟨ψ, hψ⟩ := hnew.exists_isImage hlast
      rcases hbefore with rfl | ⟨φ, hφ⟩
      · exact ⟨ψ, hψ⟩
      · exact ⟨ψ ∘ φ, hφ.trans hψ⟩
    have hstep : ∀ h, kept h → (h.rebuildOnce alphabetize announce).Ends (fun _ => False)
        (fun _ => g.MayLoseMarkers P) fun new =>
          kept new ∧ h.Rebuilds (fixedPoint alphabetize announce) new := by
      intro h hkept
      have hamong := hkept.1
      have hnone := hkept.2.1
      have hoptions := hkept.2.2.1
      have hlost : g.MayLoseMarkers P = h.MayLoseMarkers P := by
        rw [MayLoseMarkers, ← hoptions]
        rfl
      rw [hlost]
      refine (rebuildOnce_ends_of_replace
        (replace_ends_of_noIntersections hP hamong hnone)).mono fun new hnew => ?_
      obtain ⟨φ, hφ⟩ := himage hkept hnew
      exact ⟨⟨hnew.among hamong, hφ.noIntersections hg, hnew.options.trans hoptions,
        .inr ⟨φ, hφ⟩⟩, hnew⟩
    refine (settle_ends hstep ⟨hstore, hg, rfl, .inl rfl⟩).mono ?_
    rintro new ⟨-, last, hlast, hnew, -⟩
    obtain ⟨φ, hφ⟩ := himage hlast hnew
    exact ⟨φ, hφ, hφ.noIntersections hg⟩

/-- The two entwined classes are settled without a fault and without a loss. -/
theorem settle_entwined :
    ((entwined.replace ⟨"rewrite", .plain, true, false⟩ [] true).Ends (fun _ => False)
      (fun _ => False) fun out => ∃ new φ, out = .derived new ∧
        entwined.IsImage new φ .plain true ∧ new.NoIntersections) ∧
    (entwined.settle true false).Ends (fun _ => False) (fun _ => False) fun new =>
      ∃ φ, entwined.IsImage new φ .preserving true ∧ new.NoIntersections := by
  have hnone : entwined.NoIntersections := by
    intro r n _ hn
    have hall : ∀ n ∈ entwined.nodes, n.kind ≠ .intersection := by decide
    exact hall n (Array.mem_of_getElem? hn)
  have hlost : entwined.MayLoseMarkers OwnKind = False := eq_false not_mayLoseMarkers_ownKind
  have hstore : entwined.store.Among OwnKind := AttributeStore.among_empty
  have hends := rebuilding_preserves_meaning oneType_ownKind hstore hnone
    ⟨"rewrite", .plain, true, false⟩ true false
  rw [hlost] at hends
  exact hends

end Generation

end SchemaGraph
