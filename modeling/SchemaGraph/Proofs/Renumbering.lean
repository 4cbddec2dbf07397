import SchemaGraph.Proofs.Images
import SchemaGraph.Proofs.NormalForm
import SchemaGraph.Proofs.Rebuild.Numbering
import SchemaGraph.Proofs.Recollection

/-!
# Rebuilding a graph in normal form

A graph in normal form has nothing that a rebuilding could clear up: a replacement without groups, a
collection and a settling each return the same graph again, with other numbers
(`SchemaGraph.Samples.build_renumbered`). The numbers are those of a depth-first search, which numbers
a node when it is done with all its children (`SchemaGraph.Generation.postorder`). The graph of samples
is not always numbered like this: nodes are stored in the order in which places are taken apart, and
the members of a union are searched in the order of their numbers.
-/

namespace SchemaGraph

namespace Generation

variable {g new : Generation} {plan : Plan} {settings : Settings} {w : Workspace} {r s : Ref}
  {P : AnyKind → Prop} {alphabetize announce : Bool}

/-! ### Runs over graphs whose nodes come after their children -/

/-- The nodes, in the order in which a depth-first search from the roots is done with them. -/
def postorder (g : Generation) : List Nat := g.collectionSearch.done

/-- Every plan that leaves nodes where they are is carried out by the same search. -/
theorem search_eq_collectionSearch (hplan : Stays plan) :
    (g.derivation plan settings).search = g.collectionSearch := by
  have hgoal : ∀ {plan : Plan} {settings : Settings}, Stays plan →
      (g.derivation plan settings).goal = Ref.index := fun {plan settings} hplan => funext fun r => by
    rw [Derivation.goal, show (g.derivation plan settings).plan = plan from rfl, hplan.target]
    rfl
  have hsearch : ∀ {plan : Plan} {settings : Settings}, Stays plan →
      (g.derivation plan settings).search = g.roots.entries.foldl (fun s e =>
        Search.visit (fun index => (g.childrenAt index).map Ref.index) (g.size + 1) [] e.2.index s)
        .start := fun hplan => by
    rw [Derivation.search, hgoal hplan]
    unfold Derivation.below
    rw [hgoal hplan]
    rfl
  rw [hsearch hplan, collectionSearch, hsearch stays_empty]

/-- The generation was made by a run over `g` that meets no node again from below. -/
structure RebuiltOnce (g : Generation) (plan : Plan) (settings : Settings) (w : Workspace)
    (new : Generation) : Prop where
  stays : Stays plan
  derives : (g.derivation plan settings).Derives w new
  numbered : (g.derivation plan settings).Numbered w (g.derivation plan settings).search
  once : (g.derivation plan settings).search.reentered = []

theorem rebuiltOnce_of_run (hplan : Stays plan) (hgroups : plan.groups = [])
    (hlt : ∀ {index c}, c ∈ g.childrenAt index → c.index < index)
    (hrun : (g.derivation plan settings).run = .ok w)
    (hnew : (g.derivation plan settings).Derives w new) : g.RebuiltOnce plan settings w new where
  stays := hplan
  derives := hnew
  numbered := Derivation.numbered_of_run hgroups hrun
  once := Derivation.search_reentered_eq_nil fun {i j} hj => by
    obtain ⟨c, hc, rfl⟩ := List.mem_map.1 hj
    change (plan.target c).index < i
    rw [hplan.target]
    exact hlt hc

namespace RebuiltOnce

variable (h : g.RebuiltOnce plan settings w new)

include h

theorem direct : w.draft.forwarded = false := (h.numbered.straight h.once).direct

/-- Children come before their parents again. -/
theorem children_lt {index : Nat} {c : Ref} (hc : c ∈ new.childrenAt index) : c.index < index :=
  h.numbered.children_lt h.derives h.once hc

theorem visits (hr : g.Reaches r) : g.Visits plan.target r := (visits_iff h.stays).2 hr

end RebuiltOnce

/-- A replacement without groups of such a graph is one run. -/
theorem replace_rebuiltOnce (hP : OneType P) (hstore : g.store.Among P) (hg : g.NoIntersections)
    (hlt : ∀ {index c}, c ∈ g.childrenAt index → c.index < index) :
    (g.replace settings [] true).Ends (fun _ => False) (fun _ => g.MayLoseMarkers P) fun out =>
      ∃ w new, out = .derived new ∧ g.RebuiltOnce (.replace []) settings w new := by
  refine (((replace_ends_of_noIntersections hP hstore hg).and replace_builds).mono_lost
    fun _ hlost => hlost.1).mono ?_
  rintro out ⟨-, w, built, hbuilds, hout⟩
  have honce := rebuiltOnce_of_run stays_replace rfl hlt hbuilds.run
    (hbuilds.derives rfl g.announced)
  exact ⟨w, _, hout honce.direct, honce⟩

/-- And so is a collection. -/
theorem collect_rebuiltOnce (hP : OneType P) (hstore : g.store.Among P)
    (hlt : ∀ {index c}, c ∈ g.childrenAt index → c.index < index) :
    (g.collect alphabetize announce).Ends (fun _ => False) (fun _ => g.MayLoseMarkers P) fun out =>
      ∃ w new, out = .derived new ∧
        g.RebuiltOnce (.substitute ∅) (collection alphabetize announce) w new := by
  refine ((collect_builds hstore).mono_bad fun _ hnot => hnot hP).mono ?_
  rintro out ⟨w, new, rfl, hrun, hnew⟩
  exact ⟨w, new, rfl, rebuiltOnce_of_run stays_empty rfl hlt hrun hnew⟩

/-! ### Other numbers -/

/-- The reference to a node in the next generation, if nodes are numbered by the search. -/
def renumber (g : Generation) (r : Ref) : Ref := ⟨g.serial + 1, g.postorder.idxOf r.index⟩

/-- The next generation, in which nodes are numbered by the search of `g`: the same nodes, roots and
attributes. -/
structure Renumbered (g new : Generation) : Prop where
  serial : new.serial = g.serial + 1
  isomorphic : g.Isomorphic new g.renumber
  attributes : ∀ {r}, g.Owns r → new.store.atIndex (g.renumber r).index = g.store.atIndex r.index
  rootAttributes : ∀ e ∈ g.roots.entries, new.store.ofRoot e.1 = g.store.ofRoot e.1

/-- The generation has the same nodes, roots and attributes under the same numbers. -/
structure Coincides (g new : Generation) : Prop where
  node : ∀ index, new.node? index = (g.node? index).map (Node.mapChildren fun c => new.refAt c.index)
  roots : new.roots.entries = g.roots.entries.map fun e => (e.1, new.refAt e.2.index)
  attributes : ∀ index < g.size, new.store.atIndex index = g.store.atIndex index
  rootAttributes : ∀ e ∈ g.roots.entries, new.store.ofRoot e.1 = g.store.ofRoot e.1

theorem Normal.not_hasTwins (hg : g.Normal) : ¬g.HasTwins false := by
  rintro ⟨r, s, hr, hs, hne, n, n', hn, hn', hnode, -⟩
  rw [hg.canonical hn, hg.canonical hn'] at hnode
  exact hne (hr.owns.eq_of_index_eq hs.owns (hg.distinct hn (hnode ▸ hn')))

theorem Normal.noIntersections' (hg : g.Normal) : g.NoIntersections :=
  fun _ _ _ hn => hg.noIntersections hn

section Renumbered

variable (h : g.RebuiltOnce plan settings w new) (hg : g.Normal)
  (hmapping : settings.mapping = .preserving) (halphabetize : settings.alphabetize = false)

include h hg hmapping halphabetize

theorem RebuiltOnce.distinct : (g.derivation plan settings).Distinct :=
  distinct_of_not_hasTwins h.stays hmapping (halphabetize ▸ hg.not_hasTwins)

theorem RebuiltOnce.imageOf_eq (hr : g.Reaches r) :
    (g.derivation plan settings).imageOf w r = g.renumber r := by
  rw [h.numbered.imageOf_eq h.derives h.once (h.distinct hg hmapping halphabetize) (h.visits hr),
    search_eq_collectionSearch h.stays]
  rfl

/-- **A graph in normal form is rebuilt to itself, with other numbers.** -/
theorem RebuiltOnce.renumbered : g.Renumbered new := by
  have hdistinct := h.distinct hg hmapping halphabetize
  have himage : ∀ {r}, g.Owns r → (g.derivation plan settings).imageOf w r = g.renumber r :=
    fun hr => h.imageOf_eq hg hmapping halphabetize (hg.reaches hr)
  refine ⟨h.derives.serial, ⟨?_, fun hr => ?_, fun {r s} hr hs heq => ?_, fun {s} hs => ?_,
    fun {r n} hr hn => ?_⟩, fun {r} hr => ?_, fun e he => ?_⟩
  · rw [h.derives.roots, h.derives.finished.roots]
    exact List.map_congr_left fun e he => by rw [himage (owns_of_mem_roots he)]
  · exact himage hr ▸ (h.derives.reaches (h.visits (hg.reaches hr))).owns
  · rw [← himage hr, ← himage hs] at heq
    exact h.derives.imageOf_inj hdistinct (h.visits (hg.reaches hr)) (h.visits (hg.reaches hs)) heq
  · obtain ⟨r, hr, rfl⟩ := h.derives.exists_image hs
    have hreach : g.Reaches r := (visits_iff h.stays).1 hr
    exact ⟨r, hreach.owns, (himage hreach.owns).symm⟩
  · obtain ⟨old, hold, hstored⟩ := h.derives.node_of_direct h.direct (h.visits (hg.reaches hr))
    obtain rfl := Option.some.inj (hold.symm.trans hn)
    change new.node? _ = some ((old.mapChildren _).canonical settings.mapping settings.alphabetize)
      at hstored
    rw [hmapping, halphabetize, Node.canonical_mapChildren, hg.canonical hn, himage hr] at hstored
    rw [hstored]
    exact congrArg some (Node.mapChildren_congr fun c hc => himage (owns_of_mem_children hn hc))
  · rw [← himage hr]
    exact h.derives.atIndex_imageOf hdistinct (h.visits (hg.reaches hr))
      (attributes_of_stays h.stays)
  · rw [h.derives.store]
    exact h.derives.finished.boundAttributes e he

omit hmapping halphabetize in
/-- The search is done with every node once. -/
theorem RebuiltOnce.postorder_perm : g.postorder.Perm (List.range g.size) := by
  have hdone := h.numbered.keys
  rw [search_eq_collectionSearch h.stays] at hdone
  have hnodup : g.collectionSearch.done.Nodup := hdone ▸ w.counterparts.nodup
  refine (List.perm_ext_iff_of_nodup hnodup List.nodup_range).2 fun index => ?_
  have hmem : index ∈ g.postorder ↔ g.Visits plan.target (g.refAt index) := by
    rw [postorder, ← search_eq_collectionSearch h.stays]
    exact h.numbered.mem_done_iff h.derives
  rw [List.mem_range]
  refine hmem.trans ((visits_iff h.stays).trans ⟨fun hr => hr.owns.2, fun hlt => ?_⟩)
  exact hg.reaches ⟨rfl, hlt⟩

end Renumbered

/-! ### The same numbers -/

theorem idxOf_range {n i : Nat} (h : i < n) : (List.range n).idxOf i = i := by
  have hget := List.nodup_range.idxOf_getElem i (by simpa using h)
  simpa using hget

section Coincides

variable (h : g.Renumbered new) (hg : g.Normal)

include h hg

/-- No two nodes of the next generation are equal either. -/
theorem Renumbered.distinct {i j : Nat} {n : Node} (hi : new.node? i = some n)
    (hj : new.node? j = some n) : i = j := by
  have howns : ∀ {k}, new.node? k = some n → new.Owns (new.refAt k) := fun hk =>
    ⟨rfl, lt_size_of_node? hk⟩
  obtain ⟨r, hr, himage⟩ := h.isomorphic.onto (howns hi)
  obtain ⟨s, hs, himage'⟩ := h.isomorphic.onto (howns hj)
  obtain ⟨m, hm⟩ := hr.exists_node
  obtain ⟨m', hm'⟩ := hs.exists_node
  have hnode := h.isomorphic.node hr hm
  have hnode' := h.isomorphic.node hs hm'
  rw [himage] at hnode
  rw [himage'] at hnode'
  -- the old nodes are equal, since numbers tell children apart
  have hsame : m.mapChildren g.renumber = m'.mapChildren g.renumber :=
    (Option.some.inj (hnode.symm.trans hi)).trans (Option.some.inj (hnode'.symm.trans hj)).symm
  have hid := Node.mapChildren_eq_of_mapChildren_eq (g := id) (fun c hc c' hc' heq =>
    h.isomorphic.injective (owns_of_mem_children hm hc) (owns_of_mem_children hm' hc') heq) hsame
  rw [Node.mapChildren_id, Node.mapChildren_id] at hid
  obtain rfl := hr.eq_of_index_eq hs (hg.distinct hm (hid ▸ hm'))
  exact congrArg Ref.index (himage.symm.trans himage')

/-- Where numbers are the same, each node has the number of its place in the search. The induction is
on the number, since children have smaller ones. -/
theorem Renumbered.idxOf_eq (hsame : g.Coincides new) {index : Nat} (hindex : index < g.size) :
    g.postorder.idxOf index = index := by
  induction index using Nat.strong_induction_on with
  | h index ih =>
    obtain ⟨n, hn⟩ : ∃ n, g.node? index = some n := Owns.exists_node (r := g.refAt index) ⟨rfl, hindex⟩
    have hchildren : n.mapChildren g.renumber = n.mapChildren fun c => new.refAt c.index := by
      refine Node.mapChildren_congr fun c hc => ?_
      have hlt : c.index < index := hg.children_lt (by rwa [childrenAt, hn])
      rw [renumber, ih c.index hlt (owns_of_mem_children hn hc).2, ← h.serial]
      rfl
    have hthere := hsame.node index
    rw [hn, Option.map_some, ← hchildren] at hthere
    exact h.distinct hg (h.isomorphic.node (r := g.refAt index) ⟨rfl, hindex⟩ hn) hthere

/-- **The numbers are the same exactly if nodes are numbered in the order of the search.** -/
theorem Renumbered.coincides_iff (hperm : g.postorder.Perm (List.range g.size)) :
    g.Coincides new ↔ g.postorder = List.range g.size := by
  constructor
  · intro hsame
    have hlength : g.postorder.length = g.size := by simpa using hperm.length_eq
    refine List.ext_getElem (by simpa using hlength) fun index hindex _ => ?_
    rw [List.getElem_range]
    have hlt : index < g.size := hlength ▸ hindex
    have hmem : index ∈ g.postorder := hperm.mem_iff.2 (List.mem_range.2 hlt)
    have hget := List.getElem_idxOf (List.idxOf_lt_length_iff.2 hmem)
    simpa only [h.idxOf_eq hg hsame hlt] using hget
  · intro horder
    have hnumber : ∀ {r}, g.Owns r → g.renumber r = new.refAt r.index := fun hr => by
      rw [renumber, horder, idxOf_range hr.2, ← h.serial]
      rfl
    refine ⟨fun index => ?_, ?_, fun index hindex => ?_, h.rootAttributes⟩
    · cases hn : g.node? index with
      | some n =>
        have howns : g.Owns (g.refAt index) := ⟨rfl, lt_size_of_node? hn⟩
        have hnode := h.isomorphic.node howns hn
        rw [hnumber howns] at hnode
        exact hnode.trans (congrArg some (Node.mapChildren_congr fun c hc =>
          hnumber (owns_of_mem_children hn hc)))
      | none =>
        -- what has a number in the next generation has it here
        cases hm : new.node? index with
        | none => rfl
        | some m =>
          obtain ⟨r, hr, himage⟩ := h.isomorphic.onto (s := new.refAt index)
            ⟨rfl, lt_size_of_node? hm⟩
          obtain ⟨n, hn'⟩ := hr.exists_node
          rw [hnumber hr] at himage
          rw [show index = r.index from (congrArg Ref.index himage).symm, hn'] at hn
          cases hn
    · rw [h.isomorphic.roots]
      exact List.map_congr_left fun e he => by rw [hnumber (owns_of_mem_roots he)]
    · have howns : g.Owns (g.refAt index) := ⟨rfl, hindex⟩
      have hattributes := h.attributes howns
      rwa [hnumber howns] at hattributes

end Coincides

/-! ### The statement -/

/-- The next generation is `g` with the numbers of the search, and has the same numbers exactly if
they are those of `g`. -/
def RenumbersTo (g new : Generation) : Prop :=
  g.Renumbered new ∧ (g.Coincides new ↔ g.postorder = List.range g.size)

theorem RebuiltOnce.renumbersTo (h : g.RebuiltOnce plan settings w new) (hg : g.Normal)
    (hmapping : settings.mapping = .preserving) (halphabetize : settings.alphabetize = false) :
    g.RenumbersTo new :=
  have hrenumbered := h.renumbered hg hmapping halphabetize
  ⟨hrenumbered, hrenumbered.coincides_iff hg (h.postorder_perm hg)⟩

/-- What rebuilds a graph in normal form renumbers it. -/
theorem Normal.renumbers (hg : g.Normal) (hstore : g.store.Among OwnKind) :
    (∀ title announce, (g.replace ⟨title, .preserving, false, announce⟩ [] true).Ends
      (fun _ => False) (fun _ => False) fun out => ∃ new, out = .derived new ∧ g.RenumbersTo new) ∧
    (∀ announce, (g.collect false announce).Ends (fun _ => False) (fun _ => False)
      fun out => ∃ new, out = .derived new ∧ g.RenumbersTo new) ∧
    (∀ announce, (g.settle false announce).Ends (fun _ => False) (fun _ => False) g.RenumbersTo) := by
  have hnever : ∀ e : LostMarkers, g.MayLoseMarkers OwnKind → False := fun _ =>
    not_mayLoseMarkers_ownKind
  have hreplace : ∀ settings : Settings, settings.mapping = .preserving →
      settings.alphabetize = false → (g.replace settings [] true).Ends (fun _ => False)
        (fun _ => False) fun out => ∃ new, out = .derived new ∧ g.RenumbersTo new := by
    intro settings hmapping halphabetize
    refine ((replace_rebuiltOnce oneType_ownKind hstore hg.noIntersections' hg.children_lt).mono_lost
      hnever).mono ?_
    rintro out ⟨w, new, rfl, hnew⟩
    exact ⟨new, rfl, hnew.renumbersTo hg hmapping halphabetize⟩
  refine ⟨fun title announce => hreplace _ rfl rfl, fun announce => ?_, fun announce => ?_⟩
  · refine ((collect_rebuiltOnce oneType_ownKind hstore hg.children_lt).mono_lost hnever).mono ?_
    rintro out ⟨w, new, rfl, hnew⟩
    exact ⟨new, rfl, hnew.renumbersTo hg rfl rfl⟩
  · rw [settle_eq_rebuildOnce hg.not_hasTwins]
    exact rebuildOnce_ends_of_replace (hreplace _ rfl rfl)

end Generation

namespace Samples

/-- **The graph of samples is in normal form, and rebuilding only renumbers it.** The graph is always
built, in generation 0, with or without provenance tracking. A forced replacement without groups that
keeps all kinds, a collection, and a settling, none of which sorts properties, each return it with
nodes numbered as a depth-first search is done with them; so with the same numbers exactly if it was
numbered like this before. -/
theorem build_renumbered (samples : List (String × Json)) (options : Options) :
    ∃ g, (ofList samples).build options = .ok g ∧ g.Normal ∧ g.serial = 0 ∧
      (∀ title announce, (g.replace ⟨title, .preserving, false, announce⟩ [] true).Ends
        (fun _ => False) (fun _ => False)
        fun out => ∃ new, out = .derived new ∧ g.RenumbersTo new) ∧
      (∀ announce, (g.collect false announce).Ends (fun _ => False) (fun _ => False)
        fun out => ∃ new, out = .derived new ∧ g.RenumbersTo new) ∧
      (∀ announce, (g.settle false announce).Ends (fun _ => False) (fun _ => False)
        g.RenumbersTo) := by
  obtain ⟨g, hbuilt, hnormal, hfirst, -⟩ := (build_normal samples options).exists_ok fun _ => id
  exact ⟨g, hbuilt, hnormal, hfirst.serial, hnormal.renumbers hfirst.among⟩

/-- An object inside an array, after an integer, and the object itself. -/
def inwards : List (String × Json) := [("r", .array [.integer 1, .object []]), ("r", .object [])]

/-- The union of the root has the number of its class before the number of its array, whose items are
an integer and the same class. The graph is built with the integer first, and a collection of it meets
the class first. -/
theorem collect_inwards : ∃ g new, (ofList inwards).build ⟨false⟩ = .ok g ∧
    (g.collect false false).Returns (.derived new) ∧
    g.node? 0 = some (.primitive .integer) ∧ new.node? 0 = some (.object []) := by
  have hpasses : ((ofList inwards).build ⟨false⟩).toOption.any (fun g =>
      decide (g.node? 0 = some (.primitive .integer)) && (g.collect false false).passes fun out _ =>
        decide ((out.after g).node? 0 = some (.object []))) = true := by decide +kernel
  cases hbuilt : (ofList inwards).build ⟨false⟩ with
  | error f => simp [hbuilt, Except.toOption] at hpasses
  | ok g =>
    simp only [hbuilt, Except.toOption, Option.any_some, Bool.and_eq_true, decide_eq_true_eq]
      at hpasses
    obtain ⟨out, log, hrun, htest⟩ := Transform.exists_of_passes hpasses.2
    obtain ⟨-, new, rfl, -⟩ := (Generation.collect_ends (P := fun _ => True)
      fun _ _ _ => trivial).of_returns ⟨_, _, hrun⟩
    exact ⟨g, new, rfl, ⟨_, _, hrun⟩, hpasses.1, of_decide_eq_true htest⟩

/-- **A collection can change the numbers of a graph of samples.** -/
theorem not_forall_collect_coincides : ¬∀ (samples : List (String × Json)) (options : Options)
    (g new : Generation), (ofList samples).build options = .ok g →
      (g.collect false false).Returns (.derived new) → g.Coincides new := by
  intro hall
  obtain ⟨g, new, hbuilt, hcollect, hnode, hnode'⟩ := collect_inwards
  have hsame := (hall _ _ g new hbuilt hcollect).node 0
  simp [hnode, hnode', Node.mapChildren] at hsame

end Samples

end SchemaGraph
