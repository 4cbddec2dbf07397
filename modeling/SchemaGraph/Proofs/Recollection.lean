import Mathlib.Order.WellFounded
import SchemaGraph.Proofs.Sharing

/-!
# Collecting twice

A collection leaves behind what cannot be reached, and stores equal nodes once. A second one would
have nothing to do if it did all of it, but it may find nodes to make one that the first has kept
apart: twins that lie on cycles. What it makes one is told by its own search. It keeps every two
nodes apart exactly if of any two twins the one that it is done with later was met again from below
(`SchemaGraph.Generation.imageOf_injective_iff`). Whether this is so depends on where cycles are
entered, and the order in which a collection goes through a graph need not be the order in which it
will go through its result (`SchemaGraph.Generation.not_forall_collect_idempotent`).

The point of the proof is the order in which nodes are done. Let two nodes share a counterpart, the
later of them as early as possible. Their children cannot: one that was not met again was done
before its parent, and one that was is kept apart. So the two were twins.
-/

namespace SchemaGraph

namespace Derivation

variable {d : Derivation} {w : Workspace} {i j k : Nat}

theorem Alike.symm (h : d.Alike w i j) : d.Alike w j i := by
  obtain ⟨identity, hi, hj⟩ := h
  exact ⟨identity, hj, hi⟩

theorem Alike.trans (h : d.Alike w i j) (h' : d.Alike w j k) : d.Alike w i k := by
  obtain ⟨identity, hi, hj⟩ := h
  obtain ⟨identity', hj', hk⟩ := h'
  obtain rfl := hj.unique hj'
  exact ⟨identity, hi, hk⟩

end Derivation

namespace Generation

variable {g h new : Generation} {r s c : Ref} {w : Workspace} {alphabetize announce : Bool}

/-! ### Sizes -/

/-- Where every node can be reached, there are as many reachable nodes as nodes. -/
theorem length_reachable_eq_size (hall : ∀ s, g.Owns s → g.Reaches s) :
    g.reachable.length = g.size := by
  have hperm : g.reachable.Perm g.refs := by
    refine (List.perm_ext_iff_of_nodup nodup_reachable nodup_refs).2 fun r => ?_
    rw [mem_reachable_iff, mem_refs_iff]
    exact ⟨Reaches.owns, hall r⟩
  simpa [refs] using hperm.length_eq

/-! ### Twins that are met again -/

/-- How a generation is collected. -/
abbrev collecting (g : Generation) (alphabetize announce : Bool) : Derivation :=
  g.derivation (.substitute ∅) (collection alphabetize announce)

/-- The search of a collection, which is the same whatever the collection is told. -/
def collectionSearch (g : Generation) : Search := (g.collecting false false).search

/-- Of any two twins, the one that the search is done with later was met again from below. -/
def TwinsReenter (g : Generation) (alphabetize : Bool) : Prop :=
  ∀ r s, g.Reaches r → g.Reaches s → g.Twins alphabetize r s →
    g.collectionSearch.Before r.index s.index → s.index ∈ g.collectionSearch.reentered

section Collection

variable (hnew : (g.collecting alphabetize announce).Derives w new)

include hnew

/-- Two nodes are to be stored under one identity if their canonical forms and texts are the same
with children replaced by their counterparts. -/
theorem alike_collecting_iff {n n' : Node} (hr : g.Reaches r) (hs : g.Reaches s)
    (hn : g.node? r.index = some n) (hn' : g.node? s.index = some n') :
    (g.collecting alphabetize announce).Alike w r.index s.index ↔
      (n.canonical .preserving alphabetize).mapChildren
          ((g.collecting alphabetize announce).imageOf w) =
        (n'.canonical .preserving alphabetize).mapChildren
          ((g.collecting alphabetize announce).imageOf w) ∧
      (g.store.atIndex r.index).identityTexts = (g.store.atIndex s.index).identityTexts := by
  rw [← Node.canonical_mapChildren, ← Node.canonical_mapChildren]
  exact hnew.alike_iff hr.visits hs.visits hn hn'
    (attributes_of_stays stays_empty) (attributes_of_stays stays_empty)

/-- Twins are to be stored under one identity. -/
theorem Twins.alike (htwins : g.Twins alphabetize r s) (hr : g.Reaches r) (hs : g.Reaches s) :
    (g.collecting alphabetize announce).Alike w r.index s.index := by
  obtain ⟨n, n', hn, hn', hnode, htexts⟩ := htwins
  exact (alike_collecting_iff hnew hr hs hn hn').2 ⟨by rw [hnode], htexts⟩

/-- Two nodes that are to be stored under one identity are twins, if no children of theirs share a
counterpart. -/
theorem twins_of_alike (hr : g.Reaches r) (hs : g.Reaches s)
    (halike : (g.collecting alphabetize announce).Alike w r.index s.index)
    (hchildren : ∀ b ∈ g.childrenAt r.index, ∀ c ∈ g.childrenAt s.index,
      (g.collecting alphabetize announce).imageOf w b =
        (g.collecting alphabetize announce).imageOf w c → b = c) : g.Twins alphabetize r s := by
  obtain ⟨n, hn⟩ := hr.owns.exists_node
  obtain ⟨n', hn'⟩ := hs.owns.exists_node
  obtain ⟨hnode, htexts⟩ := (alike_collecting_iff hnew hr hs hn hn').1 halike
  refine ⟨n, n', hn, hn', ?_, htexts⟩
  rw [← Node.mapChildren_id (n := n.canonical _ _), ← Node.mapChildren_id (n := n'.canonical _ _)]
  refine Node.mapChildren_eq_of_mapChildren_eq (fun b hb c hc heq => ?_) hnode
  rw [childrenAt, hn, childrenAt, hn'] at hchildren
  exact hchildren b (Node.mem_children_canonical.1 hb) c (Node.mem_children_canonical.1 hc) heq

variable (hs : (g.collecting alphabetize announce).Follows w g.collectionSearch)

include hs

/-- A child that shares a counterpart with a node that was done before it was done before its
parent. -/
theorem before_of_shared {p : Ref} (hp : g.Reaches p) (hc : c ∈ g.childrenAt p.index)
    (hr : g.Reaches r) (hbefore : g.collectionSearch.Before r.index c.index)
    (heq : (g.collecting alphabetize announce).imageOf w r =
      (g.collecting alphabetize announce).imageOf w c) :
    g.collectionSearch.Before c.index p.index := by
  have hmeets : (g.collecting alphabetize announce).old.MeetsBelow
      (Plan.substitute ∅).target p c := meetsBelow_iff.2 ⟨c, hc, rfl⟩
  refine hs.before_of_meetsBelow hnew hp.visits hmeets fun hmem => ?_
  rcases (hs.imageOf_eq_iff hnew hr.visits (hmeets.visits hp.visits)).1 heq with
    rfl | ⟨halike, -, hnot⟩
  · exact Nat.lt_irrefl _ hbefore
  · exact hnot ⟨hmem, _, hbefore, halike⟩

/-- **No two nodes share a counterpart if twins are met again.** The induction is on the place of
the later one in the order of the search. -/
theorem imageOf_ne_of_before (htwins : g.TwinsReenter alphabetize) (hr : g.Reaches r)
    (hs' : g.Reaches s) (hbefore : g.collectionSearch.Before r.index s.index) :
    (g.collecting alphabetize announce).imageOf w r ≠
      (g.collecting alphabetize announce).imageOf w s := by
  induction hplace : g.collectionSearch.done.idxOf s.index using Nat.strong_induction_on
    generalizing r s with
  | h place ih =>
    intro heq
    have hne : r ≠ s := fun h => Nat.lt_irrefl _ (h ▸ hbefore)
    obtain ⟨halike, hnot, hnot'⟩ :=
      ((hs.imageOf_eq_iff hnew hr.visits hs'.visits).1 heq).resolve_left hne
    -- a child of either was done before the later of the two
    have hchild : ∀ {b c}, g.Reaches b →
        (c ∈ g.childrenAt r.index ∨ c ∈ g.childrenAt s.index) →
        g.collectionSearch.Before b.index c.index →
        (g.collecting alphabetize announce).imageOf w b ≠
          (g.collecting alphabetize announce).imageOf w c := by
      intro b c hb hc hbc heq'
      rcases hc with hc | hc
      · have hlt := before_of_shared hnew hs hr hc hb hbc heq'
        exact ih _ (hplace ▸ Nat.lt_trans hlt hbefore) hb (hr.of_mem_childrenAt hc) hbc rfl heq'
      · have hlt := before_of_shared hnew hs hs' hc hb hbc heq'
        exact ih _ (hplace ▸ hlt) hb (hs'.of_mem_childrenAt hc) hbc rfl heq'
    have hsame : g.Twins alphabetize r s := by
      refine twins_of_alike hnew hr hs' halike fun b hb c hc heq' => ?_
      by_contra hbc
      have hb' := hr.of_mem_childrenAt hb
      have hc' := hs'.of_mem_childrenAt hc
      have hindex : b.index ≠ c.index := fun h => hbc (hb'.owns.eq_of_index_eq hc'.owns h)
      rcases Search.before_or_before (hs.mem_done_of_visits hnew hb'.visits) hindex with h | h
      · exact hchild hb' (.inr hc) h heq'
      · exact hchild hc' (.inl hb) h heq'.symm
    exact hnot' ⟨htwins r s hr hs' hsame hbefore, _, hbefore, halike⟩

/-- **A collection keeps all nodes apart exactly if twins are met again.** -/
theorem imageOf_injective_iff :
    (∀ r s, g.Reaches r → g.Reaches s → (g.collecting alphabetize announce).imageOf w r =
      (g.collecting alphabetize announce).imageOf w s → r = s) ↔ g.TwinsReenter alphabetize := by
  constructor
  · intro hinj r s hr hs' htwins hbefore
    by_contra hmem
    have halike := Twins.alike hnew htwins hr hs'
    -- the first of all nodes that are to be stored like `s` is shared by `s`
    obtain ⟨t, ⟨ht, halike'⟩, hfirst⟩ :=
      (measure fun t : Ref => g.collectionSearch.done.idxOf t.index).wf.has_min
        {t | g.Reaches t ∧ (g.collecting alphabetize announce).Alike w t.index s.index}
        ⟨r, hr, halike⟩
    have hne : t ≠ s := fun h => hfirst r ⟨hr, halike⟩ (h ▸ hbefore)
    refine hne (hinj t s ht hs' ((hs.imageOf_eq_iff hnew ht.visits hs'.visits).2
      (.inr ⟨halike', fun hkept => ?_, fun hkept => hmem hkept.1⟩)))
    obtain ⟨-, i, hi, halike''⟩ := hkept
    obtain ⟨identity, ⟨a, hready, -⟩, -⟩ := id halike''
    exact hfirst (g.refAt i) ⟨(visits_iff stays_empty).1 hready.met, halike''.trans halike'⟩ hi
  · intro htwins r s hr hs' heq
    by_contra hne
    have hindex : r.index ≠ s.index := fun h => hne (hr.owns.eq_of_index_eq hs'.owns h)
    rcases Search.before_or_before (hs.mem_done_of_visits hnew hr.visits) hindex with h | h
    · exact imageOf_ne_of_before hnew hs htwins hr hs' h heq
    · exact imageOf_ne_of_before hnew hs htwins hs' hr h heq.symm

end Collection

/-- Without twins there are none that are not met again. -/
theorem twinsReenter_of_not_hasTwins (h : ¬g.HasTwins alphabetize) : g.TwinsReenter alphabetize := by
  intro r s hr hs htwins hbefore
  obtain rfl := eq_of_twins h hr hs htwins
  exact absurd hbefore (Nat.lt_irrefl _)

/-! ### The statement -/

/-- The nodes of `new` are those of `g` under `φ`, one for one, with children and roots. -/
structure Isomorphic (g new : Generation) (φ : Ref → Ref) : Prop where
  roots : new.roots.entries = g.roots.entries.map fun e => (e.1, φ e.2)
  owns : ∀ {r}, g.Owns r → new.Owns (φ r)
  injective : ∀ {r s}, g.Owns r → g.Owns s → φ r = φ s → r = s
  onto : ∀ {s}, new.Owns s → ∃ r, g.Owns r ∧ φ r = s
  node : ∀ {r n}, g.Owns r → g.node? r.index = some n →
    new.node? (φ r).index = some (n.mapChildren φ)

/-- What a collection returns was built by a run. -/
theorem collect_builds {P : AnyKind → Prop} (hg : g.store.Among P) :
    (g.collect alphabetize announce).Ends (fun _ => ¬OneType P) (fun _ => g.MayLoseMarkers P)
      fun out => ∃ w new, out = .derived new ∧ (g.collecting alphabetize announce).run = .ok w ∧
        (g.collecting alphabetize announce).Derives w new := by
  refine (((collect_ends hg).and substitute_builds).mono_lost fun _ hlost => hlost.1).mono ?_
  rintro out ⟨⟨-, new, rfl, -⟩, heq | ⟨w, built, hbuilds, heq⟩⟩
  · cases heq
  · obtain rfl := Outcome.derived.inj heq
    exact ⟨w, _, rfl, hbuilds.run, hbuilds.derives rfl g.announced⟩

/-- What has been collected: every node can be reached, and is in canonical form. -/
structure IsCollected (g : Generation) (alphabetize : Bool) : Prop where
  reaches : ∀ {r}, g.Owns r → g.Reaches r
  canonical : ∀ {r n}, g.Owns r → g.node? r.index = some n →
    n.canonical .preserving alphabetize = n

theorem isCollected_of_derives (hnew : (g.collecting alphabetize announce).Derives w new) :
    new.IsCollected alphabetize where
  reaches hs := by
    obtain ⟨r, hr, rfl⟩ := hnew.exists_image hs
    exact hnew.reaches hr
  canonical {s n} hs hn := by
    obtain ⟨r, hr, rfl⟩ := hnew.exists_image hs
    obtain ⟨old, -, himage⟩ :=
      hnew.node_of_direct (not_forwarded_of_substitute hnew.finished) hr
    obtain rfl := Option.some.inj (himage.symm.trans hn)
    exact Node.canonical_canonical

theorem IsCollected.size_eq (h : g.IsCollected alphabetize) : g.size = g.reachable.length :=
  (length_reachable_eq_size fun _ => h.reaches).symm

/-- Isomorphic generations have as many nodes. -/
theorem Isomorphic.size_eq {φ : Ref → Ref} (h : g.Isomorphic new φ)
    (hg : g.IsCollected alphabetize) (hnew : new.IsCollected alphabetize) :
    new.size = g.size := by
  rw [hg.size_eq, hnew.size_eq]
  refine Nat.le_antisymm (length_reachable_le φ fun s hs => ?_)
    (length_reachable_le_of_injective φ (fun r hr => hnew.reaches (h.owns hr.owns))
      fun r s hr hs => h.injective hr.owns hs.owns)
  obtain ⟨r, hr, himage⟩ := h.onto hs.owns
  exact ⟨r, hg.reaches hr, himage⟩

section Again

variable (hg : g.IsCollected alphabetize)
  (hnew : (g.collecting alphabetize announce).Derives w new)

include hg hnew

/-- **A collection of what has been collected** that keeps all nodes apart is a bijection. -/
theorem isomorphic_of_injective (hinj : ∀ r s, g.Reaches r → g.Reaches s →
      (g.collecting alphabetize announce).imageOf w r =
        (g.collecting alphabetize announce).imageOf w s → r = s) :
    g.Isomorphic new ((g.collecting alphabetize announce).imageOf w) where
  roots := by
    rw [hnew.roots, hnew.finished.roots]
    rfl
  owns hr := (hnew.reaches (hg.reaches hr).visits).owns
  injective hr hs := hinj _ _ (hg.reaches hr) (hg.reaches hs)
  onto hs := by
    obtain ⟨r, hr, himage⟩ := exists_reaches_image hnew stays_empty
      ((isCollected_of_derives hnew).reaches hs)
    exact ⟨r, hr.owns, himage⟩
  node {r n} hr hn := by
    obtain ⟨old, hold, himage⟩ := hnew.node_of_direct (not_forwarded_of_substitute hnew.finished)
      (hg.reaches hr).visits
    obtain rfl := Option.some.inj (hold.symm.trans hn)
    rw [himage]
    refine congrArg some ?_
    change (old.mapChildren _).canonical .preserving alphabetize = _
    rw [Node.canonical_mapChildren, hg.canonical hr hn]

/-- It has no more nodes, and as many exactly if it keeps them apart. -/
theorem size_le_and_eq_iff : new.size ≤ g.size ∧
    (new.size = g.size ↔ ∀ r s, g.Reaches r → g.Reaches s →
      (g.collecting alphabetize announce).imageOf w r =
        (g.collecting alphabetize announce).imageOf w s → r = s) := by
  have honto : ∀ {s}, new.Reaches s →
      ∃ r, g.Reaches r ∧ (g.collecting alphabetize announce).imageOf w r = s :=
    fun hs => exists_reaches_image hnew stays_empty hs
  rw [hg.size_eq, (isCollected_of_derives hnew).size_eq]
  have hle : new.reachable.length ≤ g.reachable.length := length_reachable_le _ fun _ => honto
  refine ⟨hle, fun heq => ?_, fun hinj => Nat.le_antisymm hle ?_⟩
  · by_contra hnot
    push Not at hnot
    obtain ⟨r, s, hr, hs, himage, hne⟩ := hnot
    -- one of the two is not needed
    have hlt : new.reachable.length < g.reachable.length := by
      refine length_reachable_lt ((g.collecting alphabetize announce).imageOf w) hr fun t ht => ?_
      obtain ⟨r', hr', himage'⟩ := honto ht
      by_cases heq' : r' = r
      · exact ⟨s, hs, hne.symm, himage.symm.trans (heq' ▸ himage')⟩
      · exact ⟨r', hr', heq', himage'⟩
    omega
  · exact length_reachable_le_of_injective _
      (fun r hr => hnew.reaches hr.visits) hinj

end Again

/-- **What a second collection does.** It meets no fault and adds no node. It keeps all nodes, and is
then a bijection that keeps nodes with their children and roots, exactly if of any two twins in the
collected generation the one that the search is done with later was met again from below; so it is
with every generation without twins. -/
theorem collect_again {P : AnyKind → Prop} (hP : OneType P) (hg : g.store.Among P)
    (alphabetize announce announce' : Bool) :
    (g.collect alphabetize announce).Ends (fun _ => False) (fun _ => g.MayLoseMarkers P)
      fun out => ∃ h, out = .derived h ∧
        (h.collect alphabetize announce').Ends (fun _ => False) (fun _ => g.MayLoseMarkers P)
          fun out => ∃ next, out = .derived next ∧ next.size ≤ h.size ∧
            (next.size = h.size ↔ h.TwinsReenter alphabetize) ∧
            ((∃ φ, h.Isomorphic next φ) ↔ h.TwinsReenter alphabetize) ∧
            (¬h.HasTwins alphabetize → h.TwinsReenter alphabetize) := by
  refine ((collect_builds hg).mono_bad fun _ hnot => hnot hP).mono ?_
  rintro out ⟨w, h, rfl, -, hh⟩
  refine ⟨h, rfl, ?_⟩
  have hlost : g.MayLoseMarkers P = h.MayLoseMarkers P := by
    rw [MayLoseMarkers, MayLoseMarkers, hh.options]
    rfl
  have hamong : h.store.Among P := hh.store ▸ hh.finished.grown.among_old hh.plan hg
  rw [hlost]
  refine ((collect_builds hamong).mono_bad fun _ hnot => hnot hP).mono ?_
  rintro out ⟨v, next, rfl, hrun, hnext⟩
  have hcollected := isCollected_of_derives hh
  obtain ⟨hle, heq⟩ := size_le_and_eq_iff hcollected hnext
  have hfollows : (h.collecting alphabetize announce').Follows v h.collectionSearch :=
    Derivation.follows_of_run rfl rfl hrun
  have hreenter := imageOf_injective_iff hnext hfollows
  refine ⟨next, rfl, hle, heq.trans hreenter, ⟨?_, fun htwins => ?_⟩, twinsReenter_of_not_hasTwins⟩
  · rintro ⟨φ, hφ⟩
    exact (heq.trans hreenter).1 (hφ.size_eq hcollected (isCollected_of_derives hnext))
  · exact ⟨_, isomorphic_of_injective hcollected hnext (hreenter.2 htwins)⟩

/-- Collecting twice, with the numbers of nodes that there are after each time. -/
theorem exists_collect_twice {m n : Nat} (htwice : (g.collect alphabetize false).passes (fun out _ =>
      (out.after g).size == m && ((out.after g).collect alphabetize false).passes fun again _ =>
        (again.after g).size == n) = true) :
    ∃ h next, (g.collect alphabetize false).Returns (.derived h) ∧
      (h.collect alphabetize false).Returns (.derived next) ∧ h.size = m ∧ next.size = n := by
  obtain ⟨out, log, hrun, htest⟩ := Transform.exists_of_passes htwice
  rw [Bool.and_eq_true] at htest
  obtain ⟨again, log', hrun', htest'⟩ := Transform.exists_of_passes htest.2
  have hderived : ∀ {g : Generation} {out : Outcome}, (g.collect alphabetize false).Returns out →
      ∃ new, out = .derived new := by
    intro g out hreturns
    obtain ⟨-, new, heq, -⟩ :=
      (collect_ends (P := fun _ => True) fun _ _ _ => trivial).of_returns hreturns
    exact ⟨new, heq⟩
  obtain ⟨h, rfl⟩ := hderived ⟨_, _, hrun⟩
  obtain ⟨next, rfl⟩ := hderived ⟨_, _, hrun'⟩
  exact ⟨h, next, ⟨_, _, hrun⟩, ⟨_, _, hrun'⟩, eq_of_beq htest.1, eq_of_beq htest'⟩

/-! ### A cycle that is entered elsewhere -/

/-- Two equal classes below an array. The array can be reached without the map, but is not the first
way in. -/
def turned : Generation where
  options := ⟨false⟩
  nodes := #[.map ⟨1, 1⟩, .object [⟨"b", ⟨1, 2⟩, false⟩, ⟨"z", ⟨1, 0⟩, false⟩], .array ⟨1, 4⟩,
    .object [⟨"b", ⟨1, 2⟩, false⟩, ⟨"z", ⟨1, 0⟩, false⟩],
    .object [⟨"p", ⟨1, 1⟩, false⟩, ⟨"q", ⟨1, 3⟩, false⟩], .union (.ofList [⟨1, 0⟩, ⟨1, 2⟩])]
  store := .empty 1
  roots := .ofList [("r", ⟨1, 5⟩)]
  announced := false
  children_inBounds := by decide
  roots_inBounds := by decide

/-- The first collection keeps the classes apart, and stores the array before the map. So the second
one starts from the array and makes them one. -/
theorem collect_turned : ∃ h next, (turned.collect false false).Returns (.derived h) ∧
    (h.collect false false).Returns (.derived next) ∧ h.size = 6 ∧ next.size = 5 :=
  exists_collect_twice (by decide +kernel)

/-- So after the first collection, there are twins the later of which is not met again. -/
theorem collect_again_turned : ∃ h, (turned.collect false false).Returns (.derived h) ∧
    h.size = 6 ∧ ¬h.TwinsReenter false := by
  have hreenter : ∀ {g h next : Generation}, g.store.Among OwnKind →
      (g.collect false false).Returns (.derived h) →
        (h.collect false false).Returns (.derived next) →
          (next.size = h.size ↔ h.TwinsReenter false) := by
    intro g h next hg hfirst hsecond
    have hagain := collect_again oneType_ownKind hg false false false
    obtain ⟨_, heq, hends⟩ := hagain.of_returns hfirst
    obtain rfl := Outcome.derived.inj heq
    obtain ⟨_, heq, -, hiff, -⟩ := hends.of_returns hsecond
    obtain rfl := Outcome.derived.inj heq
    exact hiff
  obtain ⟨h, next, hfirst, hsecond, hsize, hsize'⟩ := collect_turned
  refine ⟨h, hfirst, hsize, fun htwins => ?_⟩
  have hsame := (hreenter AttributeStore.among_empty hfirst hsecond).2 htwins
  omega

/-- **Collecting is not idempotent.** -/
theorem not_forall_collect_idempotent : ¬∀ (g h next : Generation) (alphabetize : Bool),
    (g.collect alphabetize false).Returns (.derived h) →
      (h.collect alphabetize false).Returns (.derived next) →
        next.size = h.size ∧ ∃ φ, h.Isomorphic next φ := by
  intro hall
  obtain ⟨h, next, hfirst, hsecond, hsize, hsize'⟩ := collect_turned
  have hsame := (hall turned h next false hfirst hsecond).1
  omega

end Generation

end SchemaGraph
