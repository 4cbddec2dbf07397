import SchemaGraph.Proofs.IdentityTexts
import SchemaGraph.Proofs.Recollection

/-!
# Collecting graphs without cycles

The unfolding of a node (`SchemaGraph.Generation.unfolding`) has its kind, its labels and the texts
of its identity, and the unfoldings of its children: in order below an array, a map or a class, and
as a set below a union or an intersection. It is cut off at a depth, but a path downwards in a graph
without cycles has no more nodes than there are, so nothing is missing from this depth on.

A collection of such a graph makes two nodes one exactly if their unfoldings are the same
(`SchemaGraph.Generation.collect_minimises`). Nothing is met again from below, so no node is kept
apart, and what decides is whether two nodes are the same with their children replaced by their
counterparts. From there to unfoldings it is an induction on the depth. Back, the depth has to be
more than the place of a node in the order of the search, which is done with its children first.

A node is merged by what it was, and merged attributes may have other texts than it had. So a second
pass finds nothing to do if kinds keep their texts (`SchemaGraph.KeepsTexts`), and may find something if
they do not (`SchemaGraph.Generation.collect_swelling`).
-/

namespace SchemaGraph

/-- What can be seen from a node down to a depth. -/
def Unfolding : (depth : Nat) → Type
  | 0 => Unit
  | depth + 1 => Option (Level (Unfolding depth)) × List (String × String)

namespace Generation

variable {g new : Generation} {r s : Ref} {w : Workspace} {alphabetize announce : Bool} {depth : Nat}
  {P : AnyKind → Prop}

/-- The unfolding of a node: its canonical form with children unfolded, and the texts of its
identity. -/
def unfolding (g : Generation) (alphabetize : Bool) : (depth : Nat) → Ref → Unfolding depth
  | 0, _ => ()
  | depth + 1, r =>
    ((g.node? r.index).map fun n =>
        (n.canonical .preserving alphabetize).level (g.unfolding alphabetize depth),
      (g.store.atIndex r.index).identityTexts)

/-- No node that can be reached is below itself. -/
def Acyclic (g : Generation) : Prop :=
  ∀ r, g.Reaches r → ¬Relation.TransGen (g.MeetsBelow id) r r

theorem unfolding_eq_iff {n n' : Node} (hn : g.node? r.index = some n)
    (hn' : g.node? s.index = some n') :
    g.unfolding alphabetize (depth + 1) r = g.unfolding alphabetize (depth + 1) s ↔
      (n.canonical .preserving alphabetize).level (g.unfolding alphabetize depth) =
          (n'.canonical .preserving alphabetize).level (g.unfolding alphabetize depth) ∧
        (g.store.atIndex r.index).identityTexts = (g.store.atIndex s.index).identityTexts := by
  simp only [unfolding, hn, hn', Option.map_some]
  constructor
  · intro h
    obtain ⟨hlevel, htexts⟩ := Prod.mk.inj h
    exact ⟨Option.some.inj hlevel, htexts⟩
  · rintro ⟨hlevel, htexts⟩
    rw [hlevel, htexts]

/-- A child of a node that can be reached can be reached. -/
theorem Reaches.of_mem_canonical {n : Node} {c : Ref} (hr : g.Reaches r)
    (hn : g.node? r.index = some n) (hc : c ∈ (n.canonical .preserving alphabetize).children) :
    g.Reaches c :=
  hr.child hn (Node.mem_children_canonical.1 hc)

section Acyclic

variable (hacyclic : g.Acyclic) (hrun : (g.collecting alphabetize announce).run = .ok w)
  (hnew : (g.collecting alphabetize announce).Derives w new)

include hacyclic hrun hnew

/-- In a graph without cycles nothing is met again from below. -/
theorem not_mem_reentered (hr : g.Reaches r) : r.index ∉ g.collectionSearch.reentered := fun hmem =>
  hacyclic r hr ((Derivation.sharesBySearch rfl rfl hrun hnew).onCycle hr.visits hmem)

/-- So what decides is whether two nodes are the same with their children replaced by their
counterparts. -/
theorem imageOf_eq_iff_of_acyclic {n n' : Node} (hr : g.Reaches r) (hs : g.Reaches s)
    (hn : g.node? r.index = some n) (hn' : g.node? s.index = some n') :
    (g.collecting alphabetize announce).imageOf w r =
        (g.collecting alphabetize announce).imageOf w s ↔
      (n.canonical .preserving alphabetize).level
          ((g.collecting alphabetize announce).imageOf w) =
        (n'.canonical .preserving alphabetize).level
          ((g.collecting alphabetize announce).imageOf w) ∧
      (g.store.atIndex r.index).identityTexts = (g.store.atIndex s.index).identityTexts := by
  have hkept : ∀ {t}, g.Reaches t → ¬(g.collecting alphabetize announce).Kept w
      (g.collecting alphabetize announce).search t.index := fun ht hkept =>
    not_mem_reentered hacyclic hrun hnew ht hkept.1
  rw [(Derivation.sharesBySearch rfl rfl hrun hnew).imageOf_eq_iff hr.visits hs.visits,
    Node.level_eq_iff, ← alike_collecting_iff hnew hr hs hn hn']
  constructor
  · rintro (rfl | ⟨halike, -⟩)
    · obtain rfl := Option.some.inj (hn.symm.trans hn')
      exact (alike_collecting_iff hnew hr hr hn hn).2 ⟨rfl, rfl⟩
    · exact halike
  · exact fun halike => .inr ⟨halike, hkept hr, hkept hs⟩

/-- **Nodes that share a counterpart have the same unfoldings**, to any depth. -/
theorem unfolding_eq_of_imageOf_eq (hr : g.Reaches r) (hs : g.Reaches s)
    (heq : (g.collecting alphabetize announce).imageOf w r =
      (g.collecting alphabetize announce).imageOf w s) :
    g.unfolding alphabetize depth r = g.unfolding alphabetize depth s := by
  induction depth generalizing r s with
  | zero => rfl
  | succ depth ih =>
    obtain ⟨n, hn⟩ := hr.owns.exists_node
    obtain ⟨n', hn'⟩ := hs.owns.exists_node
    obtain ⟨hlevel, htexts⟩ :=
      (imageOf_eq_iff_of_acyclic hacyclic hrun hnew hr hs hn hn').1 heq
    refine (unfolding_eq_iff hn hn').2 ⟨Node.level_eq_of_level_eq (fun c hc c' hc' => ?_) hlevel, htexts⟩
    exact ih (hr.of_mem_canonical hn hc) (hs.of_mem_canonical hn' hc')

/-- **Nodes that have the same unfoldings share a counterpart**, if these are as deep as the search
was done with nodes by then. -/
theorem imageOf_eq_of_unfolding_eq (hr : g.Reaches r) (hs : g.Reaches s)
    (hdepth : g.collectionSearch.done.idxOf r.index < depth)
    (heq : g.unfolding alphabetize depth r = g.unfolding alphabetize depth s) :
    (g.collecting alphabetize announce).imageOf w r =
      (g.collecting alphabetize announce).imageOf w s := by
  induction depth generalizing r s with
  | zero => exact absurd hdepth (Nat.not_lt_zero _)
  | succ depth ih =>
    obtain ⟨n, hn⟩ := hr.owns.exists_node
    obtain ⟨n', hn'⟩ := hs.owns.exists_node
    obtain ⟨hlevel, htexts⟩ := (unfolding_eq_iff hn hn').1 heq
    refine (imageOf_eq_iff_of_acyclic hacyclic hrun hnew hr hs hn hn').2
      ⟨Node.level_eq_of_level_eq (fun c hc c' hc' heq' => ?_) hlevel, htexts⟩
    have hchild := hr.of_mem_canonical hn hc
    -- the search was done with the child before
    have hbefore : g.collectionSearch.Before c.index r.index :=
      (Derivation.follows_of_run rfl rfl hrun).before_of_meetsBelow hnew hr.visits
        ⟨n, hn, c, Node.mem_children_canonical.1 hc, rfl⟩
        (not_mem_reentered hacyclic hrun hnew hchild)
    exact ih hchild (hs.of_mem_canonical hn' hc') (Nat.lt_of_lt_of_le hbefore (Nat.le_of_lt_succ hdepth))
      heq'

/-- The places in the order of the search are below the number of nodes. -/
theorem imageOf_eq_iff_unfolding_eq (hr : g.Reaches r) (hs : g.Reaches s) (hdepth : g.size ≤ depth) :
    (g.collecting alphabetize announce).imageOf w r =
        (g.collecting alphabetize announce).imageOf w s ↔
      g.unfolding alphabetize depth r = g.unfolding alphabetize depth s := by
  have hfollows : (g.collecting alphabetize announce).Follows w g.collectionSearch :=
    Derivation.follows_of_run rfl rfl hrun
  have hplace := List.idxOf_lt_length_of_mem
    (hfollows.mem_done_of_visits hnew hr.visits)
  have hlength : g.collectionSearch.done.length ≤ g.size :=
    hfollows.length_done_le hnew.finished.grown.sound
  exact ⟨unfolding_eq_of_imageOf_eq hacyclic hrun hnew hr hs,
    imageOf_eq_of_unfolding_eq hacyclic hrun hnew hr hs (by omega)⟩

end Acyclic

/-! ### No second pass -/

/-- A counterpart has the texts of the nodes that share it, if texts are kept in merges. -/
theorem identityTexts_imageOf (hP : KeepsTexts P) (hg : g.store.Among P)
    (hrun : (g.collecting alphabetize announce).run = .ok w)
    (hnew : (g.collecting alphabetize announce).Derives w new) (hr : g.Reaches r) :
    (new.store.atIndex ((g.collecting alphabetize announce).imageOf w r).index).identityTexts =
      (g.store.atIndex r.index).identityTexts := by
  have hdirect := not_forwarded_of_substitute hnew.finished
  obtain ⟨sets, hsets, hmem⟩ := hnew.finished.grown.gathered
    ((g.collecting alphabetize announce).imageOf w r).index
  rw [hnew.store]
  refine Attributes.identityTexts_combineAll hP (fun a ha => ?_) (fun hnone => ?_) hsets
  · -- whatever lives there shares the counterpart
    obtain ⟨index, home, hlodged, hindex⟩ := (hmem a).1 ha
    obtain ⟨_, _, -, hstands⟩ := id hlodged
    have hmet : g.Reaches (g.refAt index) := (visits_iff stays_empty).1 hstands.ready.met
    have hattributes : a = g.store.atIndex index :=
      Except.ok.inj (hstands.ready.attributes.symm.trans (attributes_of_stays stays_empty))
    refine ⟨hattributes ▸ hg index, hattributes ▸ ?_⟩
    have himage := (hnew.livesAt_iff_of_direct hdirect hstands.ready.met).1 ⟨a, hlodged⟩
    have hhome : home = (g.collecting alphabetize announce).imageOf w r := by
      have howns := (hnew.reaches hr.visits).owns
      have howns' := (hnew.reaches hstands.ready.met).owns
      rw [← himage] at hindex ⊢
      exact howns'.eq_of_index_eq howns hindex
    rcases ((Derivation.sharesBySearch rfl rfl hrun hnew).imageOf_eq_iff hstands.ready.met
      hr.visits).1 (himage.trans hhome) with heq | ⟨halike, -⟩
    · rw [← heq]
      rfl
    · obtain ⟨n, hn⟩ := hmet.owns.exists_node
      obtain ⟨n', hn'⟩ := hr.owns.exists_node
      exact ((alike_collecting_iff hnew hmet hr hn hn').1 halike).2
  · obtain ⟨home, a, hlodged⟩ := hnew.exists_livesAt hr.visits
    have himage := (hnew.livesAt_iff_of_direct hdirect hr.visits).1 ⟨a, hlodged⟩
    have ha := (hmem a).2 ⟨r.index, home, hlodged, himage ▸ rfl⟩
    simp [hnone] at ha

/-- **What is collected of a graph without cycles has no twins.** -/
theorem not_hasTwins_of_acyclic (hP : KeepsTexts P) (hg : g.store.Among P) (hacyclic : g.Acyclic)
    (hrun : (g.collecting alphabetize announce).run = .ok w)
    (hnew : (g.collecting alphabetize announce).Derives w new) : ¬new.HasTwins alphabetize := by
  rintro ⟨_, _, hx, hy, hne, m, m', hm, hm', hnode, htexts⟩
  obtain ⟨r, hr, rfl⟩ := exists_reaches_image hnew stays_empty hx
  obtain ⟨s, hs, rfl⟩ := exists_reaches_image hnew stays_empty hy
  have hstored : ∀ {r}, g.Reaches r → ∃ n, g.node? r.index = some n ∧
      new.node? ((g.collecting alphabetize announce).imageOf w r).index =
        some ((n.mapChildren ((g.collecting alphabetize announce).imageOf w)).canonical
          .preserving alphabetize) := fun hr =>
    hnew.node_of_direct (not_forwarded_of_substitute hnew.finished) hr.visits
  obtain ⟨n, hn, himage⟩ := hstored hr
  obtain ⟨n', hn', himage'⟩ := hstored hs
  obtain rfl := Option.some.inj (himage.symm.trans hm)
  obtain rfl := Option.some.inj (himage'.symm.trans hm')
  rw [Node.canonical_canonical, Node.canonical_canonical, Node.canonical_mapChildren,
    Node.canonical_mapChildren] at hnode
  rw [identityTexts_imageOf hP hg hrun hnew hr, identityTexts_imageOf hP hg hrun hnew hs] at htexts
  exact hne ((imageOf_eq_iff_of_acyclic hacyclic hrun hnew hr hs hn hn').2
    ⟨Node.level_eq_iff.2 hnode, htexts⟩)

/-! ### The statement -/

/-- A graph is acyclic if its nodes come after their children. -/
theorem acyclic_of_children_lt (h : ∀ index < g.size, ∀ c ∈ g.childrenAt index, c.index < index) :
    g.Acyclic := by
  have hbelow : ∀ {r s}, Relation.TransGen (g.MeetsBelow id) r s → s.index < r.index := by
    have hstep : ∀ {r c}, g.MeetsBelow id r c → c.index < r.index := by
      rintro r _ ⟨n, hn, c, hc, rfl⟩
      exact h r.index (lt_size_of_node? hn) c (by rwa [childrenAt, hn])
    intro r s hrs
    induction hrs with
    | single hc => exact hstep hc
    | tail _ hc ih => exact Nat.lt_trans (hstep hc) ih
  exact fun r _ hr => Nat.lt_irrefl _ (hbelow hr)

/-- A union of two arrays of strings, where each node is there twice. -/
def doubled : Generation where
  options := ⟨false⟩
  nodes := #[.primitive .string, .primitive .string, .array ⟨0, 0⟩, .array ⟨0, 1⟩,
    .union (.ofList [⟨0, 2⟩, ⟨0, 3⟩])]
  store := .empty 0
  roots := .ofList [("top", ⟨0, 4⟩)]
  announced := false
  children_inBounds := by decide
  roots_inBounds := by decide

/-- A kind whose texts take part in the identity of a node, and are put one behind the other. -/
def chanted : AttributeKind .text := ⟨"chant", (· ++ ·), some, some id⟩

/-- Three strings in a class. Two have the same text, which the third one has twice over. -/
def swelling : Generation where
  options := ⟨false⟩
  nodes := #[.primitive .string, .primitive .string, .primitive .string,
    .object [⟨"p", ⟨0, 0⟩, false⟩, ⟨"q", ⟨0, 1⟩, false⟩, ⟨"r", ⟨0, 2⟩, false⟩]]
  store :=
    { serial := 0
      slots := #[some (.singleton chanted "x"), some (.singleton chanted "x"),
        some (.singleton chanted "xx")]
      roots := ∅ }
  roots := .ofList [("top", ⟨0, 3⟩)]
  announced := false
  children_inBounds := by decide
  roots_inBounds := by decide

theorem among_swelling : swelling.store.Among fun k => k = ⟨.text, chanted⟩ := by
  refine AttributeStore.among_of_slots fun attributes hslot a ha => ?_
  have hslots : swelling.store.slots.toList = ["x", "x", "xx"].map fun text =>
    some (.singleton chanted text) := rfl
  rw [hslots, List.mem_map] at hslot
  obtain ⟨text, -, htext⟩ := hslot
  obtain rfl := Option.some.inj htext
  obtain rfl := List.mem_singleton.1 ha
  rfl

theorem oneType_chanted : OneType fun k => k = ⟨.text, chanted⟩ := by
  refine ⟨fun name => if name = AttributeKind.provenance.name then .markers else
    if name = AttributeKind.names.name then .candidates else .text, by decide, by decide, ?_⟩
  rintro k rfl
  decide

/-- The strings of the same text become one in the first pass. Now this one has the text of the third,
and a second pass makes them one. -/
theorem collect_swelling : ∃ h next, (swelling.collect false false).Returns (.derived h) ∧
    (h.collect false false).Returns (.derived next) ∧ h.size = 3 ∧ next.size = 2 :=
  exists_collect_twice (by decide +kernel)

/-- Two strings in a class, with values of different types under one name, which takes no part in their
identity. -/
def clashing : Generation where
  options := ⟨false⟩
  nodes := #[.primitive .string, .primitive .string,
    .object [⟨"p", ⟨0, 0⟩, false⟩, ⟨"q", ⟨0, 1⟩, false⟩]]
  store :=
    { serial := 0
      slots := #[
        some (.singleton (⟨"note", keepLater, some, none⟩ : AttributeKind .text) "five"),
        some (.singleton (⟨"note", keepLater, fun _ => none, none⟩ : AttributeKind .number) 5)]
      roots := ∅ }
  roots := .ofList [("top", ⟨0, 2⟩)]
  announced := false
  children_inBounds := by decide
  roots_inBounds := by decide

end Generation

end SchemaGraph
