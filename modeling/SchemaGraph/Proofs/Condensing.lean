import SchemaGraph.Proofs.Replacement

/-!
# Merged nodes

A transformation without scripts merges nodes and drops those that cannot be reached: several old
nodes become one new node because they are the same, because one was substituted by another, or
because an indirection was skipped. `SchemaGraph.Generation.Condenses` says so of the nodes, with
a function that sends an old node to the new one it has become, and `SchemaGraph.Generation.Merges`
of their attributes too.

In a single derivation this is what is known of images and places. Where a node was folded into a
known one, it is stored not at its image but behind the indirection there; the removal of
indirections that follows sends both to one node, so that the two derivations together merge nodes,
although the first one alone does not (`SchemaGraph.Generation.Rebuilds.exists_merges`). Merged
nodes can be merged again (`SchemaGraph.Generation.Merges.trans`), which is what rebuilding
until nothing shrinks does.
-/

namespace SchemaGraph

namespace Generation

/-! ### Merged nodes -/

/-- The nodes of `g` that are met have become those of `new` by `φ`, which sends a substituted node
where its substitute goes. Roots have become roots, and a node that is met is stored where it goes,
with its children replaced by what they have become; or else it is an intersection that goes where
all its members go. -/
structure Condenses (g new : Generation) (target φ : Ref → Ref) (mapping : StringMapping)
    (alphabetize : Bool) : Prop where
  substituted : ∀ r, φ (target r) = φ r
  roots : new.roots.entries = g.roots.entries.map fun e => (e.1, φ e.2)
  node : ∀ {r}, g.Visits target r → ∃ n, g.node? r.index = some n ∧
    (new.node? (φ r).index = some ((n.mapChildren φ).canonical mapping alphabetize) ∨
      n.kind = .intersection ∧ n.children ≠ [] ∧ ∀ c ∈ n.children, φ c = φ r)
  reaches_iff : ∀ {s}, new.Reaches s ↔ ∃ r, g.Visits target r ∧ φ r = s

/-- The old node `r` has become `s`: it was met and goes there, or was substituted by one that was
met and does. -/
def GoesTo (g : Generation) (target φ : Ref → Ref) (r s : Ref) : Prop :=
  g.Visits target (target r) ∧ φ r = s

/-- Nodes are merged, and with them what the values of their attributes list. -/
structure Merges (g new : Generation) (target φ : Ref → Ref) (mapping : StringMapping)
    (alphabetize : Bool) : Prop extends Condenses g new target φ mapping alphabetize where
  among : ∀ {P : AnyKind → Prop}, g.store.Among P → new.store.Among P
  serial : ∀ {r s}, g.GoesTo target φ r s → r.serial = g.serial
  lists : ∀ {t : ValueType} {E : Type} {kind : AttributeKind t} {elements : t.Carrier → Set E}
    {s : Ref} {x : E}, kind.Unites elements → g.store.Among (Sole kind) → new.Reaches s →
      ((new.store.atIndex s.index).Lists kind elements x ↔
        ∃ r, g.GoesTo target φ r s ∧ (g.store.atIndex r.index).Lists kind elements x)

variable {g mid new : Generation} {target φ ψ : Ref → Ref} {m : StringMapping} {a : Bool}
  {r s home : Ref} {settings : Settings}

/-! ### One derivation -/

section Derivations

variable {plan : Plan} {w : Workspace}

theorem serial_of_goesTo (hplan : plan.fault? g.serial = none)
    (htarget : g.Visits plan.target (plan.target r) → g.Owns (plan.target r))
    (hr : g.GoesTo plan.target φ r s) : r.serial = g.serial := by
  rcases Plan.mem_sources_target (p := plan) (s := r) with heq | hsource
  · exact heq ▸ (htarget hr.1).1
  · exact Plan.serial_eq_of_mem_sources hplan hsource

/-- **A derivation that folds no node on a cycle merges nodes.** -/
theorem merges_of_direct (h : (g.derivation plan settings).Derives w new)
    (hdirect : w.draft.forwarded = false) :
    g.Merges new plan.target ((g.derivation plan settings).imageOf w) settings.mapping
      settings.alphabetize where
  substituted _ := h.imageOf_target
  roots := by
    rw [h.roots, h.finished.roots]
    rfl
  node hr := by
    obtain ⟨n, hn, himage⟩ := h.node_of_direct hdirect hr
    exact ⟨n, hn, .inl himage⟩
  reaches_iff := by
    intro s
    constructor
    · exact fun hs => h.exists_image hs.owns
    · rintro ⟨r, hr, rfl⟩
      exact h.reaches hr
  among hold := h.store ▸ h.finished.grown.among_old h.plan hold
  serial := serial_of_goesTo h.plan h.owns_of_visits
  lists hunites hold hs := by
    rw [h.lists_iff hunites hold hs.owns.1]
    refine exists_congr fun r => ?_
    constructor
    · rintro ⟨hr, hhome, hx⟩
      refine ⟨⟨hr, ?_⟩, hx⟩
      rw [← h.imageOf_target]
      exact (h.livesAt_iff_of_direct hdirect hr).1 hhome
    · rintro ⟨⟨hr, himage⟩, hx⟩
      refine ⟨hr, (h.livesAt_iff_of_direct hdirect hr).2 ?_, hx⟩
      exact h.imageOf_target.trans himage

end Derivations

/-! ### Removing indirections -/

/-- Skipping indirections merges them into the nodes at their ends. -/
theorem merges_of_removal {alphabetize announce : Bool} {w : Workspace}
    (h : (g.derivation (.substitute g.indirectionMap) (removal alphabetize announce)).Derives w
      new) : g.Merges new id ((g.derivation (.substitute g.indirectionMap)
        (removal alphabetize announce)).imageOf w) .preserving alphabetize := by
  have hends : g.EndsWell := plan_fault?_eq_none.1 h.plan
  have hmerges := merges_of_direct h (not_forwarded_of_substitute h.finished)
  let ψ := (g.derivation (.substitute g.indirectionMap) (removal alphabetize announce)).imageOf w
  have hψ : ∀ r, ψ (g.indirectionEnd r) = ψ r := fun r =>
    target_indirectionMap ▸ hmerges.substituted r
  -- what is met up to indirections is what can be reached
  have hgoes : ∀ {r s}, g.GoesTo (Plan.substitute g.indirectionMap).target ψ r s ↔
      g.GoesTo id ψ r s := by
    intro r s
    refine and_congr_left fun _ => ⟨fun hr => ?_, visits_indirectionEnd hends⟩
    by_cases hind : g.IsIndirection r
    · exact hind.1
    · rw [target_indirectionMap, indirectionEnd_of_not hind] at hr
      exact (reaches_of_visits hends hr).1
  exact
    { substituted := fun _ => rfl
      roots := hmerges.roots
      node := fun {r} hr => by
        by_cases hind : g.IsIndirection r
        · obtain ⟨t, ht⟩ := hind.2
          refine ⟨_, ht, .inr ⟨rfl, by simp, fun c hc => ?_⟩⟩
          obtain rfl := List.mem_singleton.1 hc
          change ψ c = ψ r
          rw [← hψ c, ← indirectionEnd_eq_of_child hends hr ht, hψ]
        · have hmet := visits_indirectionEnd hends hr
          rw [target_indirectionMap, indirectionEnd_of_not hind] at hmet
          exact hmerges.node hmet
      reaches_iff := fun {s} => by
        rw [hmerges.reaches_iff]
        constructor
        · rintro ⟨r, hr, himage⟩
          exact ⟨r, (reaches_of_visits hends hr).1, himage⟩
        · rintro ⟨r, hr, himage⟩
          exact ⟨_, visits_indirectionEnd hends hr, (hmerges.substituted r).trans himage⟩
      among := hmerges.among
      serial := fun hr => hmerges.serial (hgoes.2 hr)
      lists := fun hunites hold hs => (hmerges.lists hunites hold hs).trans
        (exists_congr fun _ => and_congr_left' hgoes) }

/-! ### Two derivations -/

/-- What becomes of a node in two steps is what becomes of it in the second one. -/
theorem node_trans {n n' : Node} (hn' : n' = (n.mapChildren φ).canonical m a) {t : Ref}
    (h : new.node? (ψ t).index = some ((n'.mapChildren ψ).canonical .preserving a) ∨
      n'.kind = .intersection ∧ n'.children ≠ [] ∧ ∀ c ∈ n'.children, ψ c = ψ t) :
    new.node? (ψ t).index = some ((n.mapChildren (ψ ∘ φ)).canonical m a) ∨
      n.kind = .intersection ∧ n.children ≠ [] ∧ ∀ c ∈ n.children, (ψ ∘ φ) c = ψ t := by
  subst hn'
  rcases h with hstored | ⟨hkind, hchildren, hsame⟩
  · rw [Node.mapChildren_canonical_mapChildren] at hstored
    exact .inl hstored
  · rw [Node.kind_canonical_eq_intersection_iff, Node.kind_mapChildren] at hkind
    have hchild : ∀ {c}, c ∈ n.children → φ c ∈ ((n.mapChildren φ).canonical m a).children :=
      fun hc => Node.mem_children_canonical.2 (Node.mem_children_mapChildren.2 ⟨_, hc, rfl⟩)
    refine .inr ⟨hkind, fun hnone => ?_, fun c hc => hsame _ (hchild hc)⟩
    obtain ⟨c, hc⟩ := List.exists_mem_of_ne_nil _ hchildren
    obtain ⟨b, hb, -⟩ := Node.mem_children_mapChildren.1 (Node.mem_children_canonical.1 hc)
    simp [hnone] at hb

/-- What is reached after two steps. -/
theorem reaches_iff_comp (h : ∀ {t}, mid.Reaches t ↔ ∃ r, g.Reaches r ∧ φ r = t)
    (h' : ∀ {s}, new.Reaches s ↔ ∃ t, mid.Reaches t ∧ ψ t = s) :
    new.Reaches s ↔ ∃ r, g.Reaches r ∧ (ψ ∘ φ) r = s := by
  rw [h']
  constructor
  · rintro ⟨t, ht, rfl⟩
    obtain ⟨r, hr, rfl⟩ := h.1 ht
    exact ⟨r, hr, rfl⟩
  · rintro ⟨r, hr, rfl⟩
    exact ⟨φ r, h.2 ⟨r, hr, rfl⟩, rfl⟩

/-- **Merged nodes can be merged again**; kinds are mapped in the first step only. -/
theorem Merges.trans (h : g.Merges mid id φ m a) (h' : mid.Merges new id ψ .preserving a) :
    g.Merges new id (ψ ∘ φ) m a := by
  have hreaches : ∀ {t}, mid.Reaches t ↔ ∃ r, g.Reaches r ∧ φ r = t := h.reaches_iff
  exact
    { substituted := fun _ => rfl
      roots := by
        rw [h'.roots, h.roots, List.map_map]
        rfl
      node := fun {r} hr => by
        obtain ⟨n, hn, hstored | ⟨hkind, hchildren, hsame⟩⟩ := h.node hr
        · obtain ⟨n', hn', hnode⟩ := h'.node (hreaches.2 ⟨r, hr, rfl⟩)
          exact ⟨n, hn, node_trans (Option.some.inj (hn'.symm.trans hstored)) hnode⟩
        · exact ⟨n, hn, .inr ⟨hkind, hchildren, fun c hc => congrArg ψ (hsame c hc)⟩⟩
      reaches_iff := reaches_iff_comp hreaches h'.reaches_iff
      among := fun hold => h'.among (h.among hold)
      serial := fun hr => (Reaches.owns hr.1).1
      lists := fun hunites hold hs => by
        rw [h'.lists hunites (h.among hold) hs]
        constructor
        · rintro ⟨t, ⟨ht, rfl⟩, hx⟩
          obtain ⟨r, ⟨hr, rfl⟩, hlisted⟩ := (h.lists hunites hold ht).1 hx
          exact ⟨r, ⟨hr, rfl⟩, hlisted⟩
        · rintro ⟨r, ⟨hr, rfl⟩, hx⟩
          have ht : mid.Reaches (φ r) := hreaches.2 ⟨r, hr, rfl⟩
          exact ⟨φ r, ⟨ht, rfl⟩, (h.lists hunites hold ht).2 ⟨r, ⟨hr, rfl⟩, hx⟩⟩ }

/-- An image and its place are sent to one node when indirections are removed. -/
theorem imageOf_eq_of_livesAt {w v : Workspace} {alphabetize announce : Bool}
    (hmid : (g.derivation (.replace []) settings).Derives w mid)
    (hnew : (mid.derivation (.substitute mid.indirectionMap)
      (removal alphabetize announce)).Derives v new) (hr : g.Reaches r)
    (hhome : (g.derivation (.replace []) settings).LivesAt w r home) :
    (mid.derivation (.substitute mid.indirectionMap) (removal alphabetize announce)).imageOf v home =
      (mid.derivation (.substitute mid.indirectionMap) (removal alphabetize announce)).imageOf v
        ((g.derivation (.replace []) settings).imageOf w r) := by
  have hends : mid.EndsWell := plan_fault?_eq_none.1 hnew.plan
  let ψ := (mid.derivation (.substitute mid.indirectionMap) (removal alphabetize announce)).imageOf v
  have hend : ∀ s, ψ (mid.indirectionEnd s) = ψ s := fun s =>
    target_indirectionMap ▸ hnew.imageOf_target
  obtain ⟨-, -, -, -, heq | ⟨-, hleads⟩⟩ := hmid.node_of_livesAt hr hhome
  · exact congrArg ψ heq.symm
  · change ψ home = ψ _
    rw [← hend, ← indirectionEnd_eq_of_child hends (hmid.reaches hr) hleads, hend]

/-- **A rebuilding merges nodes.** An old node may be stored behind its image, in a place that is
different, but the removal of indirections sends image and place to one node. -/
theorem Rebuilds.exists_merges (h : g.Rebuilds settings new) :
    ∃ φ, g.Merges new id φ settings.mapping settings.alphabetize := by
  cases h with
  | direct hmid hdirect => exact ⟨_, merges_of_direct hmid hdirect⟩
  | @removing w v mid _ hmid _ hnew =>
    have hremoval := merges_of_removal hnew
    let φ := (g.derivation (.replace []) settings).imageOf w
    let ψ := (mid.derivation (.substitute mid.indirectionMap)
      (removal settings.alphabetize settings.announce)).imageOf v
    have hreaches : ∀ {t}, mid.Reaches t ↔ ∃ r, g.Reaches r ∧ φ r = t := by
      intro t
      constructor
      · exact fun ht => hmid.exists_image ht.owns
      · rintro ⟨r, hr, rfl⟩
        exact hmid.reaches hr
    have hplace : ∀ {r home}, g.Reaches r →
        (g.derivation (.replace []) settings).LivesAt w r home → ψ home = ψ (φ r) :=
      imageOf_eq_of_livesAt hmid hnew
    refine ⟨ψ ∘ φ, ?_⟩
    exact
      { substituted := fun _ => rfl
        roots := by
          rw [hremoval.roots, hmid.roots, hmid.finished.roots, List.map_map]
          rfl
        node := fun {r} hr => by
          obtain ⟨home, hhome⟩ := hmid.exists_livesAt hr
          obtain ⟨n, hn, hreach, hstored, -⟩ := hmid.node_of_livesAt hr hhome
          obtain ⟨n', hn', hnode⟩ := hremoval.node hreach
          refine ⟨n, hn, ?_⟩
          rw [Function.comp_apply, ← hplace hr hhome]
          exact node_trans (Option.some.inj (hn'.symm.trans hstored)) hnode
        reaches_iff := reaches_iff_comp hreaches hremoval.reaches_iff
        among := fun hold => hremoval.among
          (hmid.store ▸ hmid.finished.grown.among_old hmid.plan hold)
        serial := fun hr => (Reaches.owns hr.1).1
        lists := fun {t E kind elements s x} hunites hold hs => by
          have hmiddle : mid.store.Among (Sole kind) :=
            hmid.store ▸ hmid.finished.grown.among_old hmid.plan hold
          rw [hremoval.lists hunites hmiddle hs]
          constructor
          · rintro ⟨home, ⟨hreach, rfl⟩, hx⟩
            obtain ⟨r, hr, hhome, hx⟩ :=
              (hmid.lists_iff hunites hold (Reaches.owns hreach).1).1 hx
            exact ⟨r, ⟨hr, (hplace hr hhome).symm⟩, hx⟩
          · rintro ⟨r, ⟨hr, rfl⟩, hx⟩
            obtain ⟨home, hhome⟩ := hmid.exists_livesAt hr
            obtain ⟨-, -, hreach, -⟩ := hmid.node_of_livesAt hr hhome
            refine ⟨home, ⟨hreach, hplace hr hhome⟩, ?_⟩
            exact (hmid.lists_iff hunites hold hreach.owns.1).2 ⟨r, hr, hhome, hx⟩ }

end Generation

end SchemaGraph
