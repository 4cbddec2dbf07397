import SchemaGraph.Proofs.CollapsedIntersections
import SchemaGraph.Proofs.Digraph.Orders
import SchemaGraph.Proofs.RootsKept

/-!
# The ends of chains of indirections

To remove indirections, each is followed to the end of its chain by a loop that has no bound of its
own (`SchemaGraph.Generation.Follows`): it looks up where it is and goes on from there until it finds
nothing. What makes it end is a check made before on another structure, a graph of the same links, and
the check is exact. It finds a cycle if and only if an indirection leads back to itself
(`SchemaGraph.Generation.indirectionsCycle_iff`), and that is the only case in which the loop does not
end (`SchemaGraph.Generation.cycles_iff_not_follows`).

So the removal gives up with the fault that names the cycle exactly if there is one, because nothing
that it does afterwards meets this fault; and otherwise it is the substitution of every indirection by
the end of its chain, which fits because an end is no indirection
(`SchemaGraph.Generation.removeIndirections_follows_chains`). Chains may have any length, run together,
and be entered at any member: all of this is in `SchemaGraph.Generation.LeadsTo`, of which a chain is a
path.
-/

namespace SchemaGraph.Generation

/-! ### Following a chain -/

/-- **The loop ends at `e`** if it starts at `r`: it goes on from what is found under the place where
it is, and stops where nothing is found. -/
inductive Follows (entries : List (Ref × Ref)) : Ref → Ref → Prop
  | stop {r : Ref} : lookupEntry r entries = none → Follows entries r r
  | step {r t e : Ref} : lookupEntry r entries = some t → Follows entries t e → Follows entries r e

section Loop

variable {entries : List (Ref × Ref)} {r e e' : Ref} {length : Nat}

theorem Follows.unique (h : Follows entries r e) (h' : Follows entries r e') : e' = e := by
  induction h with
  | stop hnone =>
    cases h' with
    | stop => rfl
    | step hsome _ => exact nomatch hnone.symm.trans hsome
  | step hsome _ ih =>
    cases h' with
    | stop hnone => exact nomatch hnone.symm.trans hsome
    | step hsome' hrest =>
      obtain rfl := Option.some.inj (hsome.symm.trans hsome')
      exact ih hrest

/-- Where the bounded search has come to an end, so has the loop. -/
theorem follows_chainEnd (h : chainEnd entries length r ∉ entries.map Prod.fst) :
    Follows entries r (chainEnd entries length r) := by
  induction length generalizing r with
  | zero => exact .stop (lookupEntry_eq_none_iff.2 h)
  | succ length ih =>
    rw [chainEnd] at h ⊢
    cases hlookup : lookupEntry r entries with
    | none => exact .stop hlookup
    | some t =>
      rw [hlookup] at h
      exact .step hlookup (ih h)

/-- A greater bound makes no difference to a search that has come to an end. -/
theorem chainEnd_of_le {length' : Nat} (h : chainEnd entries length r ∉ entries.map Prod.fst)
    (hle : length ≤ length') : chainEnd entries length' r = chainEnd entries length r := by
  induction length', hle using Nat.le_induction with
  | base => rfl
  | succ length' _ ih => rw [chainEnd_succ (ih ▸ h), ih]

end Loop

variable {g : Generation} {r t e : Ref} {alphabetize announce : Bool} {P : AnyKind → Prop}

theorem leadsTo_iff_lookup : g.LeadsTo r t ↔ lookupEntry r g.indirections = some t :=
  lookup_indirections.symm

/-- The loop ends at the last node of a chain, which is no indirection. -/
theorem Follows.leads (h : Follows g.indirections r e) :
    Relation.ReflTransGen g.LeadsTo r e ∧ ¬g.IsIndirection e := by
  induction h with
  | stop hnone => exact ⟨.refl, mem_fst_indirections.not.1 (lookupEntry_eq_none_iff.1 hnone)⟩
  | step hlookup _ ih => exact ⟨.head (leadsTo_iff_lookup.2 hlookup) ih.1, ih.2⟩

/-- A node that leads somewhere is an indirection. -/
theorem isIndirection_of_transGen (h : Relation.TransGen g.LeadsTo r t) : g.IsIndirection r := by
  obtain ⟨s, hrs, -⟩ := Relation.TransGen.head'_iff.1 h
  exact isIndirection_iff.2 ⟨s, hrs⟩

/-! ### Cycles -/

/-- There is always a graph to check, whose edges are the links between two indirections. -/
theorem exists_chains (g : Generation) : ∃ graph, chains g.indirections = .ok graph ∧
    ∀ s t, t ∈ graph.next s ↔ g.LeadsTo s t ∧ g.IsIndirection t := by
  obtain ⟨graph, hgraph, hedges⟩ := chains_ends.exists_ok nofun
  refine ⟨graph, hgraph, fun s t => ?_⟩
  rw [Digraph.mem_next, hedges, leadsTo_iff_lookup, mem_fst_indirections]

/-- **The check finds a cycle exactly if there is one.** The graph that it looks at has no edge for
the last link of a chain, but a link on a cycle is not the last one. -/
theorem indirectionsCycle_iff : g.IndirectionsCycle ↔ ∃ r, Relation.TransGen g.LeadsTo r r := by
  obtain ⟨graph, hgraph, hedge⟩ := g.exists_chains
  have hcycles : g.IndirectionsCycle ↔ graph.isCyclic = true := by
    constructor
    · rintro ⟨_, hgraph', hcyclic⟩
      obtain rfl := Except.ok.inj (hgraph.symm.trans hgraph')
      exact hcyclic
    · exact fun hcyclic => ⟨graph, hgraph, hcyclic⟩
  have hpath : ∀ {s t}, Relation.TransGen g.LeadsTo s t → g.IsIndirection t →
      Relation.TransGen (fun v w => w ∈ graph.next v) s t := by
    intro s t hst ht
    induction hst using Relation.TransGen.head_induction_on with
    | single hlink => exact .single ((hedge _ _).2 ⟨hlink, ht⟩)
    | head hlink hrest ih => exact .head ((hedge _ _).2 ⟨hlink, isIndirection_of_transGen hrest⟩) ih
  rw [hcycles, Digraph.isCyclic_iff]
  constructor
  · rintro ⟨r, hr⟩
    exact ⟨r, Relation.TransGen.mono (fun _ _ hlink => ((hedge _ _).1 hlink).1) r r hr⟩
  · rintro ⟨r, hr⟩
    exact ⟨r, hpath hr (isIndirection_of_transGen hr)⟩

/-- On a cycle the loop does not end: wherever it is, it is on the cycle. -/
theorem not_follows_of_cycle (h : Relation.TransGen g.LeadsTo r r) (e : Ref) :
    ¬Follows g.indirections r e := by
  intro hfollows
  induction hfollows with
  | stop hnone =>
    exact lookupEntry_eq_none_iff.1 hnone (mem_fst_indirections.2 (isIndirection_of_transGen h))
  | step hlookup _ ih =>
    obtain ⟨s, hlink, hback⟩ := Relation.TransGen.head'_iff.1 h
    obtain rfl := Option.some.inj (hlookup.symm.trans (leadsTo_iff_lookup.1 hlink))
    exact ih (Relation.TransGen.tail' hback hlink)

/-- Without cycles every chain ends well. -/
theorem endsWell_of_acyclic (h : ∀ r, ¬Relation.TransGen g.LeadsTo r r) : g.EndsWell := by
  obtain ⟨graph, hgraph, -⟩ := g.exists_chains
  refine endsWell_of_not_isCyclic hgraph (Bool.eq_false_iff.2 fun hcyclic => ?_)
  obtain ⟨r, hr⟩ := indirectionsCycle_iff.1 ⟨graph, hgraph, hcyclic⟩
  exact h r hr

/-- The end of a chain is no indirection, and neither is what was none before. -/
theorem EndsWell.indirectionEnd_not_mem (h : g.EndsWell) (r : Ref) :
    g.indirectionEnd r ∉ g.indirections.map Prod.fst := by
  rw [mem_fst_indirections]
  by_cases hr : g.IsIndirection r
  · exact h r hr
  · rwa [indirectionEnd_of_not hr]

theorem EndsWell.follows (h : g.EndsWell) (r : Ref) :
    Follows g.indirections r (g.indirectionEnd r) :=
  follows_chainEnd (h.indirectionEnd_not_mem r)

/-- **The loop ends from everywhere exactly if there is no cycle.** -/
theorem cycles_iff_not_follows :
    (∃ r, Relation.TransGen g.LeadsTo r r) ↔ ∃ r, ∀ e, ¬Follows g.indirections r e := by
  constructor
  · rintro ⟨r, hr⟩
    exact ⟨r, not_follows_of_cycle hr⟩
  · rintro ⟨r, hr⟩
    by_contra hacyclic
    exact hr _ ((endsWell_of_acyclic (not_exists.1 hacyclic)).follows r)

/-! ### The removal -/

theorem removeIndirections_of_none (h : ∀ r, ¬g.IsIndirection r) :
    g.removeIndirections alphabetize announce = pure .unchanged := by
  rw [removeIndirections, indirections_eq_nil_iff.2 h]
  rfl

/-- With the graph of the links at hand, the removal is the check and the substitution. -/
theorem removeIndirections_eq {graph : Digraph Ref} (hr : g.IsIndirection r)
    (hgraph : chains g.indirections = .ok graph) :
    g.removeIndirections alphabetize announce =
      if graph.isCyclic then Transform.ofExcept (.error .indirectionCycle)
      else g.substitute (removal alphabetize announce) g.indirectionMap false := by
  have hsome : g.indirections.isEmpty = false :=
    List.isEmpty_eq_false_iff.2 fun hnil => indirections_eq_nil_iff.1 hnil r hr
  have hnext : ∀ k : Digraph Ref → Transform Outcome,
      (Transform.ofExcept (.ok graph) >>= k) = k graph := fun _ => rfl
  rw [removeIndirections, hgraph]
  simp only [hsome, Bool.false_eq_true, if_false, hnext]
  cases graph.isCyclic <;> rfl

/-- **Without cycles the removal is a substitution**, by the map of the ends. -/
theorem removeIndirections_eq_substitute (h : ∀ r, ¬Relation.TransGen g.LeadsTo r r)
    (hr : g.IsIndirection r) : g.removeIndirections alphabetize announce =
      g.substitute (removal alphabetize announce) g.indirectionMap false := by
  obtain ⟨graph, hgraph, -⟩ := g.exists_chains
  have hcyclic : ¬graph.isCyclic = true := fun hcyclic => by
    obtain ⟨r, hr⟩ := indirectionsCycle_iff.1 ⟨graph, hgraph, hcyclic⟩
    exact h r hr
  rw [removeIndirections_eq hr hgraph, if_neg hcyclic]

/-- **The removal gives up over a cycle exactly if there is one.** -/
theorem removeIndirections_eq_cycle_iff (log : Log) :
    (g.removeIndirections alphabetize announce).run.run log = .error .indirectionCycle ↔
      ∃ r, Relation.TransGen g.LeadsTo r r := by
  constructor
  · intro hrun
    by_contra hacyclic
    by_cases hsome : ∃ r, g.IsIndirection r
    · obtain ⟨r, hr⟩ := hsome
      rw [removeIndirections_eq_substitute (not_exists.1 hacyclic) hr] at hrun
      -- what a substitution can meet is ordinary
      exact ((substitute_keepsRoots log).of_eq_error hrun).ne_indirectionCycle rfl
    · rw [removeIndirections_of_none (not_exists.1 hsome)] at hrun
      exact nomatch hrun
  · intro hcycle
    obtain ⟨graph, hgraph, hcyclic⟩ := indirectionsCycle_iff.2 hcycle
    obtain ⟨r, hr⟩ := hcycle
    rw [removeIndirections_eq (isIndirection_of_transGen hr) hgraph, if_pos hcyclic]
    rfl

/-- **Every indirection is sent to the end of its chain.** -/
theorem find?_indirectionMap_of_endsWell (h : g.EndsWell) (hr : g.IsIndirection r) :
    g.indirectionMap.find? r = some (g.indirectionEnd r) ∧
      g.indirectionMap.find? (g.indirectionEnd r) = none := by
  classical
  rw [find?_indirectionMap, if_pos hr, find?_indirectionMap, if_neg (h r hr)]
  exact ⟨rfl, rfl⟩

/-- Where indirections are skipped, all members of a chain go where its end goes. -/
theorem Skips.indirectionEnd {new : Generation} {φ : Ref → Ref} (h : g.Skips new φ alphabetize)
    (hends : g.EndsWell) (r : Ref) : φ (g.indirectionEnd r) = φ r := by
  have hchain : ∀ {s}, Relation.ReflTransGen g.LeadsTo r s → φ s = φ r := fun hrs => by
    induction hrs with
    | refl => rfl
    | tail _ hlink ih => rw [← h.skipped hlink, ih]
  exact hchain (hends.follows r).leads.1

/-- **Chains are followed to their ends.** The removal of indirections gives up over a cycle exactly if
some indirection leads back to itself, which is the only case in which the loop does not end for every
indirection. Otherwise each is sent to the last node of its chain, at which the loop ends and which can
be reached and is no indirection, so that nothing is wrong with the substitution; and in what comes
out, each root and each child that led into a chain leads to what the end of the chain has become. -/
theorem removeIndirections_follows_chains (g : Generation) (alphabetize announce : Bool) :
    (∀ log, (g.removeIndirections alphabetize announce).run.run log = .error .indirectionCycle ↔
      ∃ r, Relation.TransGen g.LeadsTo r r) ∧
    ((∃ r, Relation.TransGen g.LeadsTo r r) ↔
      ∃ r, g.IsIndirection r ∧ ∀ e, ¬Follows g.indirections r e) ∧
    ((∀ r, ¬Relation.TransGen g.LeadsTo r r) →
      (∀ r, ¬g.IsIndirection r → g.indirectionMap.find? r = none) ∧
      (∀ r, g.IsIndirection r → ∃ e, g.indirectionMap.find? r = some e ∧
        Follows g.indirections r e ∧
        (∀ length, g.indirections.length ≤ length → chainEnd g.indirections length r = e) ∧
        Relation.TransGen g.LeadsTo r e ∧ g.Reaches e ∧ ¬g.IsIndirection e ∧
        g.indirectionMap.find? e = none) ∧
      (Plan.substitute g.indirectionMap).fault? g.serial = none ∧
      (∀ r, g.IsIndirection r → g.removeIndirections alphabetize announce =
        g.substitute (removal alphabetize announce) g.indirectionMap false) ∧
      ∀ P, g.store.Among P → (g.removeIndirections alphabetize announce).Ends
        (fun _ => ¬OneType P) (fun _ => g.MayLoseMarkers P) fun out =>
          (out = .unchanged ∧ ∀ r, ¬g.IsIndirection r) ∨
          ∃ new φ, out = .derived new ∧ g.Skips new φ alphabetize ∧
            new.roots.entries = g.roots.entries.map (fun e => (e.1, φ (g.indirectionEnd e.2))) ∧
            ∀ r, g.Reaches r → ¬g.IsIndirection r → ∃ n, g.node? r.index = some n ∧
              new.node? (φ r).index = some
                ((n.mapChildren fun c => φ (g.indirectionEnd c)).canonical .preserving
                  alphabetize)) := by
  refine ⟨removeIndirections_eq_cycle_iff, ?_, fun hacyclic => ?_⟩
  · refine cycles_iff_not_follows.trans (exists_congr fun r => ?_)
    refine (and_iff_right_of_imp fun hnot => ?_).symm
    by_contra hr
    exact hnot r (.stop (lookupEntry_eq_none_iff.2 (mem_fst_indirections.not.2 hr)))
  have hends := endsWell_of_acyclic hacyclic
  refine ⟨fun r hr => ?_, fun r hr => ?_, plan_fault?_eq_none.2 hends,
    fun r => removeIndirections_eq_substitute hacyclic, fun P hg => ?_⟩
  · classical
    rw [find?_indirectionMap, if_neg hr]
  · obtain ⟨hkey, hend⟩ := find?_indirectionMap_of_endsWell hends hr
    have hleads := (hends.follows r).leads
    refine ⟨g.indirectionEnd r, hkey, hends.follows r,
      fun length => chainEnd_of_le (hends.indirectionEnd_not_mem r), ?_,
      reaches_indirectionEnd hr.1, hends r hr, hend⟩
    refine (Relation.reflTransGen_iff_eq_or_transGen.1 hleads.1).resolve_left fun heq => ?_
    exact hleads.2 (by rwa [heq])
  · have hremoval : (g.removeIndirections alphabetize announce).Ends _ _ _ := removeIndirections_ends hg
    refine (hremoval.mono_bad fun f hf => ?_).mono fun out hout => ?_
    · rcases hf with htypes | ⟨-, hcycle⟩
      · exact htypes
      · exact absurd (indirectionsCycle_iff.1 hcycle) (not_exists.2 hacyclic)
    · rcases hout with hnone | ⟨w, new, rfl, hnew⟩
      · exact .inl hnone
      · obtain ⟨φ, hskips⟩ : ∃ φ, g.Skips new φ alphabetize := ⟨_, skips_of_derives hnew⟩
        have hφ := hskips.indirectionEnd hends
        refine .inr ⟨new, φ, rfl, hskips, ?_, fun r hr hnot => ?_⟩
        · simp only [hφ]
          exact hskips.roots
        · simp only [hφ]
          exact hskips.stored hr hnot

/-- A chain of two indirections that a root enters at the far end, and an array halfway. -/
def chained : Generation where
  options := ⟨false⟩
  nodes := #[.primitive .string, .indirection ⟨0, 0⟩, .indirection ⟨0, 1⟩, .array ⟨0, 1⟩]
  store := .empty 0
  roots := .ofList [("top", ⟨0, 2⟩), ("list", ⟨0, 3⟩)]
  announced := false
  children_inBounds := by decide
  roots_inBounds := by decide

theorem indirections_chained : chained.indirections = [(⟨0, 2⟩, ⟨0, 1⟩), (⟨0, 1⟩, ⟨0, 0⟩)] := by
  have hroots : chained.roots.values = [⟨0, 2⟩, ⟨0, 3⟩] := rfl
  have hindices : List.range chained.size = [0, 1, 2, 3] := rfl
  have hstring : chained.childrenAt 0 = [] := rfl
  have hlink : chained.childrenAt 1 = [⟨0, 0⟩] := rfl
  have hlink' : chained.childrenAt 2 = [⟨0, 1⟩] := rfl
  have harray : chained.childrenAt 3 = [⟨0, 1⟩] := rfl
  have hreachable : chained.reachable = [⟨0, 2⟩, ⟨0, 1⟩, ⟨0, 0⟩, ⟨0, 3⟩] := by
    simp [reachable, hroots, hindices, walk, hstring, hlink, hlink', harray]
  rw [indirections, hreachable]
  rfl

/-- An indirection to itself. -/
def circling : Generation where
  options := ⟨false⟩
  nodes := #[.indirection ⟨0, 0⟩]
  store := .empty 0
  roots := .ofList [("top", ⟨0, 0⟩)]
  announced := false
  children_inBounds := by decide
  roots_inBounds := by decide

/-- Root and array lead to the strings at the end of the chain; an indirection to itself is a cycle. -/
theorem removeIndirections_follows_chains_chained :
    (chained.indirectionMap.find? ⟨0, 2⟩ = some ⟨0, 0⟩ ∧
      ∃ (new : Generation) (φ : Ref → Ref),
        (chained.removeIndirections false false).Returns (.derived new) ∧
        new.roots.entries = [("top", φ ⟨0, 0⟩), ("list", φ ⟨0, 3⟩)] ∧
        new.node? (φ ⟨0, 3⟩).index = some (.array (φ ⟨0, 0⟩))) ∧
    (circling.removeIndirections false false).run.run ⟨"", []⟩ = .error .indirectionCycle := by
  have hlinks : ∀ {s t}, chained.LeadsTo s t →
      (s = ⟨0, 2⟩ ∧ t = ⟨0, 1⟩) ∨ (s = ⟨0, 1⟩ ∧ t = ⟨0, 0⟩) := fun hst => by
    simpa [indirections_chained] using mem_indirections_iff.2 hst
  have hlower : ∀ {s t}, Relation.TransGen chained.LeadsTo s t → t.index < s.index := fun hst => by
    have hlink : ∀ {s t}, chained.LeadsTo s t → t.index < s.index := fun hst => by
      rcases hlinks hst with ⟨rfl, rfl⟩ | ⟨rfl, rfl⟩ <;> decide
    induction hst with
    | single hst => exact hlink hst
    | tail _ hst ih => exact Nat.lt_trans (hlink hst) ih
  have hends : chained.indirectionEnd ⟨0, 2⟩ = ⟨0, 0⟩ ∧ chained.indirectionEnd ⟨0, 1⟩ = ⟨0, 0⟩ ∧
      chained.indirectionEnd ⟨0, 3⟩ = ⟨0, 3⟩ := by
    simp only [indirectionEnd, indirections_chained]
    decide
  have htop : chained.Reaches ⟨0, 2⟩ := reaches_of_mem_values (by decide)
  have hlist : chained.Reaches ⟨0, 3⟩ := reaches_of_mem_values (by decide)
  have hcycle : circling.LeadsTo ⟨0, 0⟩ ⟨0, 0⟩ := ⟨reaches_of_mem_values (by decide), rfl⟩
  refine ⟨?_, ((removeIndirections_follows_chains circling false false).1 _).2 ⟨_, .single hcycle⟩⟩
  obtain ⟨-, hmap, -, -, hremoval⟩ := (removeIndirections_follows_chains chained false false).2.2
    fun r hr => Nat.lt_irrefl _ (hlower hr)
  have hindirection : chained.IsIndirection ⟨0, 2⟩ := ⟨htop, _, rfl⟩
  have hnot : ¬chained.IsIndirection ⟨0, 3⟩ := by
    rintro ⟨-, _, hnode⟩
    cases hnode
  obtain ⟨out, hreturns, hout⟩ :=
    (hremoval OwnKind AttributeStore.among_empty).exists_returns (fun _ => not_not.2 oneType_ownKind)
      fun _ => not_mayLoseMarkers_ownKind
  rcases hout with ⟨-, hnone⟩ | ⟨new, φ, rfl, -, hroots, hstored⟩
  · exact absurd hindirection (hnone _)
  · obtain ⟨e, hkey, -, hbound, -⟩ := hmap _ hindirection
    have hend : chained.indirectionEnd ⟨0, 2⟩ = e := hbound _ (Nat.le_refl _)
    obtain ⟨n, hn, harray⟩ := hstored ⟨0, 3⟩ hlist hnot
    obtain rfl : Node.array ⟨0, 1⟩ = n := Option.some.inj hn
    refine ⟨hkey.trans (congrArg some (hend.symm.trans hends.1)), new, φ, hreturns, ?_, ?_⟩
    · have hentries : chained.roots.entries = [("top", ⟨0, 2⟩), ("list", ⟨0, 3⟩)] := rfl
      rw [hroots, hentries, List.map_cons, List.map_singleton, hends.1, hends.2.2]
    · rw [harray, Node.mapChildren, hends.2.1]
      rfl

end SchemaGraph.Generation
