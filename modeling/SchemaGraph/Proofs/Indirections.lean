import Mathlib.Data.Finset.Card
import SchemaGraph.Proofs.Substitution

/-!
# Removing indirections

An indirection stands for the node it leads to. The indirections that can be reached form chains,
and removing them is a substitution that sends each to the end of its chain. What makes this a
substitution that fits (`SchemaGraph.Generation.plan_fault?_eq_none`) is that an end is no
indirection itself: it is so if the chains do not run in circles
(`SchemaGraph.Generation.endsWell_of_not_isCyclic`), because a search then leaves the end of every
chain before the rest of it.

No node is lost that is not an indirection: what can be reached is met by the substitution, up
to indirections (`SchemaGraph.Generation.visits_indirectionEnd`), and only that
(`SchemaGraph.Generation.reaches_of_visits`).
-/

namespace SchemaGraph

namespace Generation

/-! ### Chains -/

section Chains

variable {entries : List (Ref × Ref)} {r s t : Ref}

theorem lookupEntry_eq_some_iff (hnodup : (entries.map Prod.fst).Nodup) :
    lookupEntry r entries = some t ↔ (r, t) ∈ entries :=
  OrderedMap.find?_eq_some_iff (m := ⟨entries, hnodup⟩)

theorem chainEnd_of_not_mem {length : Nat} (h : r ∉ entries.map Prod.fst) :
    chainEnd entries length r = r := by
  cases length with
  | zero => rfl
  | succ length => rw [chainEnd, lookupEntry_eq_none_iff.2 h]

/-- If every link of a chain goes down in rank, no chain is longer than the list. -/
theorem chainEnd_not_mem (rank : Ref → Nat)
    (hrank : ∀ {s t}, lookupEntry s entries = some t → t ∈ entries.map Prod.fst →
      rank t < rank s) : chainEnd entries entries.length r ∉ entries.map Prod.fst := by
  -- the links that are left are among those of no higher rank
  let below (r : Ref) : Finset Ref :=
    (entries.map Prod.fst).toFinset.filter fun s => rank s ≤ rank r
  have hbelow : ∀ length r, (below r).card ≤ length →
      chainEnd entries length r ∉ entries.map Prod.fst := by
    intro length
    induction length with
    | zero =>
      intro r hcard hmem
      have hr : r ∈ below r := Finset.mem_filter.2 ⟨List.mem_toFinset.2 hmem, le_rfl⟩
      have := Finset.card_pos.2 ⟨r, hr⟩
      omega
    | succ length ih =>
      intro r hcard
      rw [chainEnd]
      cases hlookup : lookupEntry r entries with
      | none => exact lookupEntry_eq_none_iff.1 hlookup
      | some t =>
        dsimp only
        by_cases ht : t ∈ entries.map Prod.fst
        · refine ih t (Nat.le_of_lt_succ (lt_of_lt_of_le (Finset.card_lt_card ?_) hcard))
          have hlt := hrank hlookup ht
          have hr : r ∈ entries.map Prod.fst := by
            by_contra hr
            rw [lookupEntry_eq_none_iff.2 hr] at hlookup
            simp at hlookup
          refine Finset.ssubset_iff_of_subset (fun s hs => ?_) |>.2 ⟨r, ?_, fun hs => ?_⟩
          · obtain ⟨hmem, hle⟩ := Finset.mem_filter.1 hs
            exact Finset.mem_filter.2 ⟨hmem, by omega⟩
          · exact Finset.mem_filter.2 ⟨List.mem_toFinset.2 hr, le_rfl⟩
          · have := (Finset.mem_filter.1 hs).2
            omega
        · rw [chainEnd_of_not_mem ht]
          exact ht
  refine hbelow _ r ?_
  calc (below r).card ≤ (entries.map Prod.fst).toFinset.card := Finset.card_filter_le _ _
    _ ≤ (entries.map Prod.fst).length := List.toFinset_card_le _
    _ = entries.length := List.length_map _

/-- A chain that has come to its end goes no further. -/
theorem chainEnd_succ {length : Nat} (h : chainEnd entries length r ∉ entries.map Prod.fst) :
    chainEnd entries (length + 1) r = chainEnd entries length r := by
  induction length generalizing r with
  | zero => exact chainEnd_of_not_mem h
  | succ length ih =>
    rw [chainEnd] at h ⊢
    cases hlookup : lookupEntry r entries with
    | none => rw [chainEnd, hlookup]
    | some t =>
      rw [hlookup] at h
      rw [chainEnd, hlookup]
      exact ih h

/-- The chains as a graph: an edge for each link between two indirections. -/
theorem chains_ends : Ends (chains entries) (fun _ => False) fun graph =>
    ∀ s t, (s, t) ∈ graph.edges ↔
      lookupEntry s entries = some t ∧ t ∈ entries.map Prod.fst := by
  have hedges : ∀ s t, (s, t) ∈ Digraph.edgesFrom (entries.map Prod.fst).eraseDups
      (fun r => ((lookupEntry r entries).filter (· ∈ entries.map Prod.fst)).toList) ↔
        lookupEntry s entries = some t ∧ t ∈ entries.map Prod.fst := by
    intro s t
    rw [Digraph.mem_edgesFrom, List.mem_eraseDups, Option.mem_toList, Option.filter_eq_some_iff]
    constructor
    · rintro ⟨-, hlookup, ht⟩
      exact ⟨hlookup, by simpa using ht⟩
    · rintro ⟨hlookup, ht⟩
      refine ⟨?_, hlookup, by simpa using ht⟩
      by_contra hs
      rw [lookupEntry_eq_none_iff.2 hs] at hlookup
      simp at hlookup
  unfold chains Digraph.ofSuccessors
  dsimp only
  split
  · -- no edge leads out of the graph: links to other nodes were left out
    rename_i v w hfind
    have hmem := List.mem_of_find?_eq_some hfind
    have hstray := List.find?_some hfind
    have ht := ((hedges v w).1 hmem).2
    simp [List.mem_eraseDups, ht] at hstray
  · exact hedges

end Chains

/-! ### The indirections of a generation -/

variable {g : Generation} {r s t : Ref} {P : AnyKind → Prop}

/-- The node can be reached and only stands for another one. -/
def IsIndirection (g : Generation) (r : Ref) : Prop :=
  g.Reaches r ∧ ∃ t, g.node? r.index = some (.indirection t)

/-- Where an indirection leads in the end; other references stay. -/
def indirectionEnd (g : Generation) (r : Ref) : Ref :=
  chainEnd g.indirections g.indirections.length r

/-- The substitution of every indirection by the end of its chain. -/
def indirectionMap (g : Generation) : OrderedMap Ref Ref :=
  .ofList (g.indirections.map fun e => (e.1, g.indirectionEnd e.1))

/-- No chain of indirections ends at an indirection. -/
def EndsWell (g : Generation) : Prop :=
  ∀ r, g.IsIndirection r → ¬g.IsIndirection (g.indirectionEnd r)

theorem mem_indirections_iff :
    (r, t) ∈ g.indirections ↔ g.Reaches r ∧ g.node? r.index = some (.indirection t) := by
  have htarget : ∀ s, ((g.node? s.index).bind Node.indirectionTarget?).map (fun t => (s, t)) =
      some (r, t) ↔ s = r ∧ g.node? r.index = some (.indirection t) := by
    intro s
    simp only [Option.map_eq_some_iff, Option.bind_eq_some_iff, Node.indirectionTarget?_eq_some_iff,
      Prod.mk.injEq]
    constructor
    · rintro ⟨_, ⟨_, hnode, rfl⟩, rfl, rfl⟩
      exact ⟨rfl, hnode⟩
    · rintro ⟨rfl, hnode⟩
      exact ⟨t, ⟨_, hnode, rfl⟩, rfl, rfl⟩
  simp only [indirections, List.mem_filterMap, htarget, mem_reachable_iff]
  constructor
  · rintro ⟨s, hs, rfl, hnode⟩
    exact ⟨hs, hnode⟩
  · rintro ⟨hr, hnode⟩
    exact ⟨r, hr, rfl, hnode⟩

theorem nodup_indirections : (g.indirections.map Prod.fst).Nodup := by
  have hsub : (g.indirections.map Prod.fst).Sublist g.reachable := by
    rw [indirections]
    induction g.reachable with
    | nil => simp
    | cons s rest ih =>
      rw [List.filterMap_cons]
      cases (g.node? s.index).bind Node.indirectionTarget? with
      | none => exact ih.cons s
      | some t => exact ih.cons_cons s
  exact nodup_reachable.sublist hsub

theorem lookup_indirections :
    lookupEntry r g.indirections = some t ↔
      g.Reaches r ∧ g.node? r.index = some (.indirection t) :=
  (lookupEntry_eq_some_iff nodup_indirections).trans mem_indirections_iff

theorem mem_fst_indirections : r ∈ g.indirections.map Prod.fst ↔ g.IsIndirection r := by
  rw [List.mem_map]
  constructor
  · rintro ⟨⟨r, t⟩, hmem, rfl⟩
    obtain ⟨hr, hnode⟩ := mem_indirections_iff.1 hmem
    exact ⟨hr, t, hnode⟩
  · rintro ⟨hr, t, hnode⟩
    exact ⟨(r, t), mem_indirections_iff.2 ⟨hr, hnode⟩, rfl⟩

theorem indirections_eq_nil_iff : g.indirections = [] ↔ ∀ r, ¬g.IsIndirection r := by
  constructor
  · intro h r hr
    simpa [h] using mem_fst_indirections.2 hr
  · intro h
    refine List.eq_nil_iff_forall_not_mem.2 fun e he => h e.1 ?_
    exact mem_fst_indirections.1 (List.mem_map_of_mem he)

/-! ### Where indirections end -/

theorem indirectionEnd_of_not (h : ¬g.IsIndirection r) : g.indirectionEnd r = r :=
  chainEnd_of_not_mem (mem_fst_indirections.not.2 h)

theorem reaches_indirectionEnd (hr : g.Reaches r) : g.Reaches (g.indirectionEnd r) := by
  have hchain : ∀ length r, g.Reaches r → g.Reaches (chainEnd g.indirections length r) := by
    intro length
    induction length with
    | zero => exact fun r hr => hr
    | succ length ih =>
      intro r hr
      rw [chainEnd]
      cases hlookup : lookupEntry r g.indirections with
      | none => exact hr
      | some t => exact ih t (hr.child (lookup_indirections.1 hlookup).2 (by simp))
  exact hchain _ r hr

/-- An indirection ends where the node does that it stands for. -/
theorem indirectionEnd_eq_of_child (hends : g.EndsWell) (hr : g.Reaches r)
    (hnode : g.node? r.index = some (.indirection t)) :
    g.indirectionEnd r = g.indirectionEnd t := by
  have hend := mem_fst_indirections.not.2 (hends r ⟨hr, t, hnode⟩)
  have hmem := mem_indirections_iff.2 ⟨hr, hnode⟩
  obtain ⟨length, hlength⟩ : ∃ length, g.indirections.length = length + 1 :=
    ⟨_, (Nat.succ_pred_eq_of_pos (List.length_pos_of_mem hmem)).symm⟩
  -- the chain of the other node is one link shorter, and going further does not change its end
  have hstep : chainEnd g.indirections (length + 1) r = chainEnd g.indirections length t := by
    rw [chainEnd, lookup_indirections.2 ⟨hr, hnode⟩]
  rw [indirectionEnd, hlength, hstep] at hend
  rw [indirectionEnd, indirectionEnd, hlength, hstep, chainEnd_succ hend]

theorem find?_indirectionMap [Decidable (g.IsIndirection r)] : g.indirectionMap.find? r =
    if g.IsIndirection r then some (g.indirectionEnd r) else none := by
  have hkeys : g.indirections.map (fun e => (e.1, g.indirectionEnd e.1)) =
      (g.indirections.map Prod.fst).map fun r => (r, g.indirectionEnd r) := by
    rw [List.map_map]
    rfl
  rw [indirectionMap, hkeys, OrderedMap.find?_ofList_map]
  simp only [mem_fst_indirections]

theorem target_indirectionMap :
    (Plan.substitute g.indirectionMap).target r = g.indirectionEnd r := by
  classical
  rw [Plan.target, find?_indirectionMap]
  by_cases hr : g.IsIndirection r
  · rw [if_pos hr, Option.getD_some]
  · rw [if_neg hr, Option.getD_none, indirectionEnd_of_not hr]

/-- The substitution fits exactly if the chains end well. -/
theorem plan_fault?_eq_none :
    (Plan.substitute g.indirectionMap).fault? g.serial = none ↔ g.EndsWell := by
  classical
  constructor
  · intro h r hr hend
    have hfind : g.indirectionMap.find? r = some (g.indirectionEnd r) := by
      rw [find?_indirectionMap, if_pos hr]
    have hnone := (Plan.of_substitute h hfind).2.2
    rw [find?_indirectionMap, if_pos hend] at hnone
    simp at hnone
  · intro h
    refine List.findSome?_eq_none_iff.2 fun e he => ?_
    obtain ⟨r, t⟩ := e
    have hfind := OrderedMap.find?_eq_some_iff.2 he
    rw [find?_indirectionMap] at hfind
    split at hfind
    · rename_i hr
      obtain rfl := Option.some.inj hfind
      have hcontains : g.indirectionMap.contains (g.indirectionEnd r) = false := by
        rw [OrderedMap.contains_eq_false_iff, find?_indirectionMap, if_neg (h r hr)]
      have hserial := (reaches_indirectionEnd hr.1).owns.1
      simp [Plan.entryFault?, hcontains, hserial, hr.1.owns.1]
    · simp at hfind

/-- **Chains that do not run in circles end well.** -/
theorem endsWell_of_not_isCyclic {graph : Digraph Ref}
    (hgraph : chains g.indirections = .ok graph) (h : graph.isCyclic = false) : g.EndsWell := by
  have hedges := chains_ends.of_eq_ok hgraph
  -- in a graph without cycles each link goes down in the order of finishing
  refine fun r _ hend => chainEnd_not_mem (fun s => graph.finishingOrder.idxOf s) ?_
    (mem_fst_indirections.2 hend)
  intro s t hlookup ht
  have hall := List.any_eq_false.1 h (s, t) ((hedges s t).2 ⟨hlookup, ht⟩)
  simpa using hall

/-! ### What the substitution meets -/

/-- What can be reached is met, up to indirections. -/
theorem visits_indirectionEnd (hends : g.EndsWell) (hr : g.Reaches r) :
    g.Visits (Plan.substitute g.indirectionMap).target
      ((Plan.substitute g.indirectionMap).target r) := by
  induction hr with
  | root h => exact .root h
  | @child r c node hr hn hc ih =>
    by_cases hind : g.IsIndirection r
    · -- the only child ends where the indirection does
      obtain ⟨t, ht⟩ := hind.2
      obtain rfl := Option.some.inj (ht.symm.trans hn)
      obtain rfl := List.mem_singleton.1 hc
      rw [id, target_indirectionMap, ← indirectionEnd_eq_of_child hends hr ht,
        ← target_indirectionMap]
      exact ih
    · rw [target_indirectionMap, indirectionEnd_of_not hind] at ih
      exact ih.child hn hc

/-- Only what can be reached is met, and no indirection. -/
theorem reaches_of_visits (hends : g.EndsWell)
    (hr : g.Visits (Plan.substitute g.indirectionMap).target r) :
    g.Reaches r ∧ ¬g.IsIndirection r := by
  have hend : ∀ {c}, g.Reaches c → g.Reaches ((Plan.substitute g.indirectionMap).target c) ∧
      ¬g.IsIndirection ((Plan.substitute g.indirectionMap).target c) := by
    intro c hc
    rw [target_indirectionMap]
    refine ⟨reaches_indirectionEnd hc, ?_⟩
    by_cases hind : g.IsIndirection c
    · exact hends c hind
    · rwa [indirectionEnd_of_not hind]
  induction hr with
  | root h => exact hend (.root h)
  | child _ hn hc ih => exact hend (ih.1.child hn hc)

/-! ### The removal -/

/-- The indirections run in circles. -/
def IndirectionsCycle (g : Generation) : Prop :=
  ∃ graph, chains g.indirections = .ok graph ∧ graph.isCyclic = true

/-- What the removal of indirections is told. -/
def removal (alphabetize announce : Bool) : Settings :=
  ⟨"remove indirection intersections", .preserving, alphabetize, announce⟩

/-- **Removing indirections fails only if they run in circles**; otherwise there are none, or
the result is the generation with each replaced by the end of its chain. -/
theorem removeIndirections_ends {alphabetize announce : Bool} (hg : g.store.Among P) :
    (g.removeIndirections alphabetize announce).Ends
      (fun f => ¬OneType P ∨ (f = .indirectionCycle ∧ g.IndirectionsCycle))
      (fun _ => g.MayLoseMarkers P) fun out =>
        (out = .unchanged ∧ ∀ r, ¬g.IsIndirection r) ∨
          ∃ w new, out = .derived new ∧
            (g.derivation (.substitute g.indirectionMap) (removal alphabetize announce)).Derives
              w new := by
  rw [removeIndirections]
  by_cases hempty : g.indirections.isEmpty
  · simp only [hempty, if_true]
    exact Transform.ends_pure (.inl ⟨rfl, indirections_eq_nil_iff.1 (List.isEmpty_iff.1 hempty)⟩)
  simp only [hempty]
  have hchains : Ends (chains g.indirections)
      (fun f => ¬OneType P ∨ (f = .indirectionCycle ∧ g.IndirectionsCycle))
      fun graph => chains g.indirections = .ok graph :=
    (chains_ends.with_eq.mono fun _ h => h.1).mono_bad fun _ => False.elim
  refine (Transform.ends_ofExcept hchains).bind fun graph hgraph => ?_
  cases hcyclic : graph.isCyclic with
  | true => exact fun _ => .inr ⟨rfl, graph, hgraph, hcyclic⟩
  | false =>
    have hends := endsWell_of_not_isCyclic hgraph hcyclic
    obtain ⟨r, hr⟩ : ∃ r, g.IsIndirection r := by
      by_contra hnone
      exact hempty (List.isEmpty_iff.2 (indirections_eq_nil_iff.2 (not_exists.1 hnone)))
    have hdo : (g.indirectionMap.isEmpty && !false) = false := by
      classical
      have hfind : g.indirectionMap.find? r = some (g.indirectionEnd r) := by
        rw [find?_indirectionMap, if_pos hr]
      have hmem := OrderedMap.find?_eq_some_iff.1 hfind
      cases hentries : g.indirectionMap.isEmpty with
      | false => rfl
      | true => simp [List.isEmpty_iff.1 hentries] at hmem
    have hfaultless : OneType P → (g.derivation (.substitute g.indirectionMap)
        (removal alphabetize announce)).Faultless P := by
      refine fun htypes => ⟨plan_fault?_eq_none.2 hends, fun s hs => ?_, htypes⟩
      change g.Owns ((Plan.substitute g.indirectionMap).target s)
      rw [target_indirectionMap]
      by_cases hs' : g.IsIndirection s
      · exact (reaches_indirectionEnd hs'.1).owns
      · rw [indirectionEnd_of_not hs']
        exact hs
    have hsubstitute : (g.substitute (removal alphabetize announce) g.indirectionMap false).Ends _
        (fun _ => g.MayLoseMarkers P) _ := substitute_ends hg hdo fun w new hnew =>
      (lostMarkers?_ends_of_derives hg hnew fun s hs => visits_indirectionEnd hends hs).mono_bad
        fun _ hnot h => hnot h.types
    refine (hsubstitute.mono_bad fun f hbad => .inl fun htypes => hbad (hfaultless htypes)).mono ?_
    exact fun out hout => .inr hout

end Generation

end SchemaGraph
