import SchemaGraph.Proofs.MarkerAudit
import SchemaGraph.Proofs.Rebuild.OrderOfRun

/-!
# What a substitution makes one

Two nodes of a generation become one in a substitution if they turn out to be equal, but nodes on
cycles should be left to the fixed point. What the program does about this is to keep the
placeholder of a node, whatever else is there. Now a node has a placeholder if it was met again
from below, and of the nodes of a cycle this need be true of one only: which one depends on where
the cycle was entered. The others are looked for like any node that is on no cycle, and two of them
may become one (`SchemaGraph.Generation.not_forall_cycles_apart`).

So what becomes one can be told from the depth-first search of the old generation
(`SchemaGraph.Derivation.SharesBySearch`). Nodes that are met again lie on cycles, and each cycle
has one; no two of them share a counterpart, and every other two nodes that are to be stored under
one identity do, except where the later one was met again itself.
-/

namespace SchemaGraph

namespace Generation

/-- The node `c` is met below `r`, if every reference is first sent through `target`. -/
def MeetsBelow (g : Generation) (target : Ref → Ref) (r c : Ref) : Prop :=
  ∃ n, g.node? r.index = some n ∧ ∃ b ∈ n.children, target b = c

section

variable {g : Generation} {target : Ref → Ref} {r c : Ref}

theorem meetsBelow_iff : g.MeetsBelow target r c ↔ ∃ b ∈ g.childrenAt r.index, target b = c := by
  rw [MeetsBelow, childrenAt]
  cases g.node? r.index with
  | none => simp
  | some n => simp

theorem MeetsBelow.visits (h : g.MeetsBelow target r c) (hr : g.Visits target r) :
    g.Visits target c := by
  obtain ⟨n, hn, b, hb, rfl⟩ := h
  exact hr.child hn hb

end

end Generation

namespace Derivation

variable {d : Derivation} {w : Workspace} {new built : Generation} {s : Search} {r t c : Ref}
  {j : Nat}

/-! ### The search, by references -/

theorem mem_below_iff :
    j ∈ d.below r.index ↔ ∃ c, d.old.MeetsBelow d.plan.target r c ∧ c.index = j := by
  simp only [below, List.mem_map, Generation.meetsBelow_iff]
  constructor
  · rintro ⟨b, hb, rfl⟩
    exact ⟨_, ⟨b, hb, rfl⟩, rfl⟩
  · rintro ⟨_, ⟨b, hb, rfl⟩, rfl⟩
    exact ⟨b, hb, rfl⟩

theorem transGen_of_mem_search {k : Nat} (hk : k ∈ d.search.reentered) :
    Relation.TransGen (fun i j => j ∈ d.below i) k k := by
  have hroots : ∀ (roots : List (String × Ref)) (s : Search),
      (∀ k ∈ s.reentered, Relation.TransGen (fun i j => j ∈ d.below i) k k) →
        ∀ k ∈ (roots.foldl (fun s e => Search.visit d.below (d.old.size + 1) [] (d.goal e.2) s)
          s).reentered, Relation.TransGen (fun i j => j ∈ d.below i) k k := by
    intro roots
    induction roots with
    | nil => exact fun s hs => hs
    | cons e rest ih =>
      exact fun s hs => ih _ (Search.transGen_of_mem_reentered (by simp) hs)
  exact hroots _ _ (by simp [Search.start]) k hk

/-- What is below a node by index is below it by reference. -/
theorem exists_transGen_meetsBelow (h : Relation.TransGen (fun i j => j ∈ d.below i) r.index j) :
    ∃ t, Relation.TransGen (d.old.MeetsBelow d.plan.target) r t ∧ t.index = j := by
  induction h with
  | single hj =>
    obtain ⟨t, ht, heq⟩ := mem_below_iff.1 hj
    exact ⟨t, .single ht, heq⟩
  | tail _ hj ih =>
    obtain ⟨t, ht, rfl⟩ := ih
    obtain ⟨u, hu, heq⟩ := mem_below_iff.1 hj
    exact ⟨u, ht.tail hu, heq⟩

theorem visits_of_transGen (h : Relation.TransGen (d.old.MeetsBelow d.plan.target) r t)
    (hr : d.old.Visits d.plan.target r) : d.old.Visits d.plan.target t := by
  induction h with
  | single hstep => exact hstep.visits hr
  | tail _ hstep ih => exact hstep.visits ih

/-! ### Sharing -/

/-- What becomes one, by the search of the old generation. -/
structure SharesBySearch (d : Derivation) (w : Workspace) : Prop where
  /-- Two nodes share a counterpart if they are to be stored under one identity, unless one of them
  was met again from below after a node of this identity was done. -/
  imageOf_eq_iff : ∀ {r t}, d.old.Visits d.plan.target r → d.old.Visits d.plan.target t →
    (d.imageOf w r = d.imageOf w t ↔ r = t ∨
      (d.Alike w r.index t.index ∧ ¬d.Kept w d.search r.index ∧ ¬d.Kept w d.search t.index))
  /-- No two nodes that were met again from below share a counterpart. -/
  apart : ∀ {r t}, d.old.Visits d.plan.target r → d.old.Visits d.plan.target t → r ≠ t →
    r.index ∈ d.search.reentered → t.index ∈ d.search.reentered → d.imageOf w r ≠ d.imageOf w t
  /-- A node that was met again from below is on a cycle. -/
  onCycle : ∀ {r}, d.old.Visits d.plan.target r → r.index ∈ d.search.reentered →
    Relation.TransGen (d.old.MeetsBelow d.plan.target) r r
  /-- There is no cycle of nodes none of which was met again from below. -/
  cycle : ∀ {r}, d.old.Visits d.plan.target r → ¬Relation.TransGen
    (fun r c => d.old.MeetsBelow d.plan.target r c ∧ c.index ∉ d.search.reentered) r r

namespace Follows

variable (hs : d.Follows w s) (h : d.Derives w new)

include hs h

theorem mem_done_of_visits (hr : d.old.Visits d.plan.target r) : r.index ∈ s.done :=
  hs.mem_done (h.counterpart_imageOf hr)

/-- The search was done with a node after what is met below it, unless this was met again. -/
theorem before_of_meetsBelow (hr : d.old.Visits d.plan.target r)
    (hc : d.old.MeetsBelow d.plan.target r c) (hnot : c.index ∉ s.reentered) :
    s.Before c.index r.index :=
  (hs.below (hs.mem_done_of_visits h hr) (mem_below_iff.2 ⟨c, hc, rfl⟩)).resolve_left hnot

/-- Of two different nodes that are to be stored under one identity, the later one is kept apart if
it was met again. -/
theorem kept_or_kept (hr : d.old.Visits d.plan.target r) (ht : d.old.Visits d.plan.target t)
    (hne : r ≠ t) (hr' : r.index ∈ s.reentered) (ht' : t.index ∈ s.reentered)
    (halike : d.Alike w r.index t.index) : d.Kept w s r.index ∨ d.Kept w s t.index := by
  have hindex : r.index ≠ t.index := fun hindex =>
    hne ((h.owns_of_visits hr).eq_of_index_eq (h.owns_of_visits ht) hindex)
  obtain ⟨identity, hid, hid'⟩ := halike
  rcases Search.before_or_before (hs.mem_done_of_visits h hr) hindex with hbefore | hbefore
  · exact .inr ⟨ht', _, hbefore, identity, hid, hid'⟩
  · exact .inl ⟨hr', _, hbefore, identity, hid', hid⟩

end Follows

/-- Two old nodes are to be stored under one identity if they are the same with their children
replaced by their images, and so are the texts of their attributes. -/
theorem Derives.alike_iff {n n' : Node} {a a' : Attributes} (h : d.Derives w new)
    (hr : d.old.Visits d.plan.target r) (ht : d.old.Visits d.plan.target t)
    (hn : d.old.node? r.index = some n) (hn' : d.old.node? t.index = some n')
    (ha : d.attributes r = .ok a) (ha' : d.attributes t = .ok a') :
    d.Alike w r.index t.index ↔
      (n.mapChildren (d.imageOf w)).canonical d.mapping d.alphabetize =
          (n'.mapChildren (d.imageOf w)).canonical d.mapping d.alphabetize ∧
        a.identityTexts = a'.identityTexts := by
  have hidentified : ∀ {r n a}, d.old.Visits d.plan.target r → d.old.node? r.index = some n →
      d.attributes r = .ok a → d.Identified w r.index
        ((n.mapChildren (d.imageOf w)).canonical d.mapping d.alphabetize, a.identityTexts) := by
    intro r n a hr hn ha
    obtain ⟨n₁, a₁, home, hn₁, ha₁, hstands⟩ := h.stands hr
    obtain rfl := Option.some.inj (hn₁.symm.trans hn)
    obtain rfl := Except.ok.inj (ha₁.symm.trans ha)
    exact hstands.ready.identified
  have hid := hidentified hr hn ha
  have hid' := hidentified ht hn' ha'
  constructor
  · rintro ⟨identity, hidr, hidt⟩
    exact Prod.mk.inj ((hid.unique hidr).trans (hidt.unique hid'))
  · rintro ⟨hnode, htexts⟩
    rw [← hnode, ← htexts] at hid'
    exact ⟨_, hid, hid'⟩

/-- **What a rebuilding makes one can be told from the search**, if nodes with placeholders are not
looked for. -/
theorem sharesBySearch (hgroups : d.plan.groups = []) (hfolds : d.plan.foldsCycles = false)
    (hrun : d.run = .ok w) (h : d.Derives w new) : d.SharesBySearch w := by
  have hs := follows_of_run hgroups hfolds hrun
  refine ⟨hs.imageOf_eq_iff h, fun {r t} hr ht hne hr' ht' heq => ?_, fun {r} hr hmem => ?_,
    fun {r} hr hcycle => ?_⟩
  · obtain ⟨halike, hnot, hnot'⟩ := ((hs.imageOf_eq_iff h hr ht).1 heq).resolve_left hne
    exact (hs.kept_or_kept h hr ht hne hr' ht' halike).elim hnot hnot'
  · obtain ⟨t, ht, hindex⟩ := exists_transGen_meetsBelow (transGen_of_mem_search hmem)
    obtain rfl := (h.owns_of_visits (visits_of_transGen ht hr)).eq_of_index_eq
      (h.owns_of_visits hr) hindex
    exact ht
  · -- each node of the cycle would have been done before the one that it is met below
    have hbefore : ∀ {r t}, Relation.TransGen (fun r c => d.old.MeetsBelow d.plan.target r c ∧
        c.index ∉ d.search.reentered) r t → d.old.Visits d.plan.target r →
          d.old.Visits d.plan.target t ∧ d.search.Before t.index r.index := by
      intro r t hrt hr
      induction hrt with
      | single hstep => exact ⟨hstep.1.visits hr, hs.before_of_meetsBelow h hr hstep.1 hstep.2⟩
      | tail _ hstep ih =>
        exact ⟨hstep.1.visits ih.1,
          Nat.lt_trans (hs.before_of_meetsBelow h ih.1 hstep.1 hstep.2) ih.2⟩
    exact Nat.lt_irrefl _ (hbefore hcycle hr).2

/-- What a run without groups builds is derived. -/
theorem Builds.derives (h : d.Builds w built) (hgroups : d.plan.groups = []) (announced : Bool) :
    d.Derives w { built with announced } := by
  obtain ⟨hplan, hfinished⟩ :=
    (run_ends (P := fun _ => True) (fun _ _ _ => trivial) hgroups).of_eq_ok h.run
  obtain ⟨hoptions, hslots, hstore, hroots⟩ := Generation.of_ofDraft h.frozen
  exact ⟨hfinished, hplan, hoptions.trans hfinished.options, hslots, hstore, hroots⟩

end Derivation

namespace Generation

variable {g new : Generation} {settings : Settings} {map : OrderedMap Ref Ref} {force : Bool}

/-- A derivation returns what its run builds. -/
theorem derive_builds {plan : Plan} {accept : Workspace → Except Fault Unit} :
    (g.derive plan settings accept).Ends (fun _ => True) (fun _ => True) fun out =>
      ∃ w built, (g.derivation plan settings).Builds w built ∧
        out = ({ built with announced := g.announced }, w.draft.forwarded) := by
  refine derive_ends_of Ends.anyhow (Ends.self.mono fun w hrun => ⟨Ends.anyhow, ?_⟩)
  refine Ends.self.mono fun built hbuilt => ⟨Ends.anyhow, Ends.self.mono fun found _ => ?_⟩
  cases found with
  | some e => trivial
  | none => exact ⟨w, built, ⟨hrun, hbuilt⟩, rfl⟩

/-- A substitution returns what its run builds, or does nothing. -/
theorem substitute_builds :
    (g.substitute settings map force).Ends (fun _ => True) (fun _ => True) fun out =>
      out = .unchanged ∨ ∃ w built, (g.derivation (.substitute map) settings).Builds w built ∧
        out = .derived { built with announced := g.announced } := by
  rw [substitute]
  split
  · exact Transform.ends_pure (.inl rfl)
  refine derive_builds.bind ?_
  rintro ⟨new, forwarded⟩ ⟨w, built, hbuilds, heq⟩
  obtain ⟨rfl, -⟩ := Prod.mk.inj heq
  exact Transform.ends_pure (.inr ⟨w, built, hbuilds, rfl⟩)

/-- A replacement returns what its run builds, if no slot was forwarded. -/
theorem replace_builds {groups : List Group} :
    (g.replace settings groups true).Ends (fun _ => True) (fun _ => True) fun out =>
      ∃ w built, (g.derivation (.replace groups) settings).Builds w built ∧
        (w.draft.forwarded = false → out = .derived { built with announced := g.announced }) := by
  rw [replace, Bool.not_true, Bool.and_false]
  refine derive_builds.bind ?_
  rintro _ ⟨w, built, hbuilds, rfl⟩
  dsimp only
  split
  · next hforwarded =>
    exact Transform.ends_anyhow.bind fun _ _ => Transform.ends_pure
      ⟨w, built, hbuilds, fun hdirect => absurd hforwarded (by simp [hdirect])⟩
  · exact Transform.ends_pure ⟨w, built, hbuilds, fun _ => rfl⟩

/-- **What a substitution makes one can be told from a depth-first search of its generation.** For
every map, string mapping and order of properties, the generation that is returned has been built by
a run in which two nodes share a counterpart exactly if they are to be stored under one identity
(the same form with children replaced by their counterparts, the same texts), unless one of them was
met again from below after a node of this identity was done. Nodes that were met again lie on
cycles, each cycle has one, and no two of them share a counterpart. -/
theorem substitute_shares_by_search (h : (g.substitute settings map force).Returns (.derived new)) :
    ∃ w, (g.derivation (.substitute map) settings).run = .ok w ∧
      (g.derivation (.substitute map) settings).Derives w new ∧
      (g.derivation (.substitute map) settings).SharesBySearch w := by
  rcases substitute_builds.of_returns h with heq | ⟨w, built, hbuilds, heq⟩
  · cases heq
  · obtain rfl := Outcome.derived.inj heq
    have hnew := hbuilds.derives rfl g.announced
    exact ⟨w, hbuilds.run, hnew, Derivation.sharesBySearch rfl rfl hbuilds.run hnew⟩

/-! ### Two nodes on one cycle -/

/-- Two classes that differ in the order of their properties, and lie on cycles through the root. -/
def looped : Generation where
  options := ⟨false⟩
  nodes := #[.object [⟨"x", ⟨0, 1⟩, false⟩, ⟨"y", ⟨0, 2⟩, false⟩],
    .object [⟨"p", ⟨0, 0⟩, false⟩, ⟨"q", ⟨0, 0⟩, false⟩],
    .object [⟨"q", ⟨0, 0⟩, false⟩, ⟨"p", ⟨0, 0⟩, false⟩]]
  store := .empty 0
  roots := .ofList [("top", ⟨0, 0⟩)]
  announced := false
  children_inBounds := by decide
  roots_inBounds := by decide

/-- Its collection with properties sorted. -/
def collectLooped : Derivation := looped.derivation (.substitute ∅) (collection true false)

/-- Only the root is met again from below. -/
theorem mem_reentered_collectLooped {k : Nat} (hk : k ∈ collectLooped.search.reentered) : k = 0 := by
  have hsearch : collectLooped.search.reentered = [0, 0, 0, 0] := by decide
  simpa [hsearch] using hk

theorem exists_returns_looped :
    ∃ new, (looped.collect true false).Returns (.derived new) := by
  have hstore : looped.store.Among OwnKind := AttributeStore.among_empty
  obtain ⟨out, hreturns, w, new, rfl, -⟩ := (collect_ends hstore).exists_returns
    (fun _ hnot => hnot oneType_ownKind) fun _ => not_mayLoseMarkers_ownKind
  exact ⟨new, hreturns⟩

theorem visits_looped : looped.Visits (Plan.substitute ∅).target ⟨0, 0⟩ ∧
    looped.Visits (Plan.substitute ∅).target ⟨0, 1⟩ ∧
    looped.Visits (Plan.substitute ∅).target ⟨0, 2⟩ := by
  have htop : ("top", (⟨0, 0⟩ : Ref)) ∈ looped.roots.entries := by decide
  have hroot : looped.Visits (Plan.substitute ∅).target ⟨0, 0⟩ := .root htop
  have hfirst : (⟨0, 1⟩ : Ref) ∈
      (Node.object [⟨"x", ⟨0, 1⟩, false⟩, ⟨"y", ⟨0, 2⟩, false⟩]).children := by decide
  have hsecond : (⟨0, 2⟩ : Ref) ∈
      (Node.object [⟨"x", ⟨0, 1⟩, false⟩, ⟨"y", ⟨0, 2⟩, false⟩]).children := by decide
  exact ⟨hroot, hroot.child rfl hfirst, hroot.child rfl hsecond⟩

/-- The two classes are to be stored under one identity. -/
theorem alike_looped {w : Workspace} {new : Generation} (h : collectLooped.Derives w new) :
    collectLooped.Alike w 1 2 := by
  have hattributes : ∀ r, (looped.derivation (.substitute ∅) (collection true false)).attributes r =
      .ok ∅ := fun _ => attributes_of_stays stays_empty
  refine (h.alike_iff (r := ⟨0, 1⟩) (t := ⟨0, 2⟩) visits_looped.2.1 visits_looped.2.2 rfl rfl
    (hattributes _) (hattributes _)).2 ⟨?_, rfl⟩
  exact Node.canonical_object_eq_of_perm (.swap _ _ _) (by simp)

/-- So they become one, although they lie on cycles. -/
theorem imageOf_looped {w : Workspace} {new : Generation} (hrun : collectLooped.run = .ok w)
    (h : collectLooped.Derives w new) :
    collectLooped.imageOf w ⟨0, 1⟩ = collectLooped.imageOf w ⟨0, 2⟩ := by
  have hshares := Derivation.sharesBySearch rfl rfl hrun h
  refine (hshares.imageOf_eq_iff visits_looped.2.1 visits_looped.2.2).2
    (.inr ⟨alike_looped h, fun hkept => ?_, fun hkept => ?_⟩)
  · exact absurd (mem_reentered_collectLooped hkept.1) (by decide)
  · exact absurd (mem_reentered_collectLooped hkept.1) (by decide)

/-- In the collection of the two classes, the one that is done first is shared by the other. -/
theorem substitute_shares_by_search_looped : ∃ w new,
    (looped.substitute (collection true false) ∅ true).Returns (.derived new) ∧
      collectLooped.run = .ok w ∧ collectLooped.SharesBySearch w ∧
      collectLooped.imageOf w ⟨0, 1⟩ = collectLooped.imageOf w ⟨0, 2⟩ := by
  obtain ⟨new, hreturns⟩ := exists_returns_looped
  obtain ⟨w, hrun, hnew, hshares⟩ := substitute_shares_by_search hreturns
  exact ⟨w, new, hreturns, hrun, hshares, imageOf_looped hrun hnew⟩

/-- **Nodes on cycles are not always kept apart.** -/
theorem not_forall_cycles_apart : ¬∀ (g new : Generation) (settings : Settings)
    (map : OrderedMap Ref Ref) (force : Bool) (w : Workspace),
    (g.substitute settings map force).Returns (.derived new) →
      (g.derivation (.substitute map) settings).run = .ok w →
        ∀ r t, g.Visits (Plan.substitute map).target r → g.Visits (Plan.substitute map).target t →
          map.find? r = none → map.find? t = none →
          Relation.TransGen (g.MeetsBelow (Plan.substitute map).target) r r →
          Relation.TransGen (g.MeetsBelow (Plan.substitute map).target) t t → r ≠ t →
            (g.derivation (.substitute map) settings).imageOf w r ≠
              (g.derivation (.substitute map) settings).imageOf w t := by
  intro hall
  obtain ⟨new, hreturns⟩ := exists_returns_looped
  rcases substitute_builds.of_returns hreturns with heq | ⟨w, built, hbuilds, -⟩
  · cases heq
  -- each of the two is met below the root, and the root below it
  have hmeets : ∀ r c, c ∈ looped.childrenAt r.index →
      looped.MeetsBelow (Plan.substitute ∅).target r c := fun _ c hc =>
    meetsBelow_iff.2 ⟨c, hc, rfl⟩
  have hcycle : ∀ r, ⟨0, 0⟩ ∈ looped.childrenAt r.index → r ∈ looped.childrenAt 0 →
      Relation.TransGen (looped.MeetsBelow (Plan.substitute ∅).target) r r := fun r hroot hr =>
    (Relation.TransGen.single (hmeets r ⟨0, 0⟩ hroot)).tail (hmeets ⟨0, 0⟩ r hr)
  exact hall looped new (collection true false) ∅ true w hreturns hbuilds.run ⟨0, 1⟩ ⟨0, 2⟩
    visits_looped.2.1 visits_looped.2.2 rfl rfl (hcycle _ (by decide) (by decide))
    (hcycle _ (by decide) (by decide)) (by decide)
    (imageOf_looped hbuilds.run (hbuilds.derives rfl false))

end Generation

end SchemaGraph
