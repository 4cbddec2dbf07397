import SchemaGraph.Proofs.Condensing

/-!
# The attributes of merged nodes

Attributes follow the nodes that have them. If a kind unites its values, then after any
transformation without scripts the value at a node is the union of the values at the old nodes that
it has come from, neither more nor less, and it is absent where none of them has one
(`SchemaGraph.Generation.attributes_united`).

What the values in a place list is known from the run
(`SchemaGraph.Derivation.Derives.lists_iff`), and that whole transformations merge it is part of
`SchemaGraph.Generation.Merges`; here it is said of the values themselves. That a kind is absent is
the case of a value that counts as one element, whatever it is.
-/

namespace SchemaGraph

namespace Generation

/-- If a kind unites its values and is alone under its name, it is absent from a reachable node of
`new` exactly if it is absent from all old nodes that have become that node, and otherwise its value
is the union of theirs. -/
def Gathers (g new : Generation) (target φ : Ref → Ref) : Prop :=
  ∀ {t : ValueType} {E : Type} (kind : AttributeKind t) (elements : t.Carrier → Set E),
    kind.Unites elements → g.store.Among (Sole kind) → ∀ s, new.Reaches s →
      ∃ value, new.store.find? kind s = .ok value ∧
        (value = none ↔ ∀ r, g.GoesTo target φ r s → g.store.find? kind r = .ok none) ∧
        ∀ v, value = some v → elements v =
          {x | ∃ r u, g.GoesTo target φ r s ∧ g.store.find? kind r = .ok (some u) ∧ x ∈ elements u}

variable {g new : Generation} {target φ : Ref → Ref} {settings : Settings} {alphabetize announce : Bool}

/-- Where what is listed is merged, what is read is united. -/
theorem Merges.gathers {m : StringMapping} {a : Bool}
    (h : g.Merges new target φ m a) : g.Gathers new target φ := by
  intro t E kind elements hunites hold s hs
  have hnew : new.store.Among (Sole kind) := h.among hold
  obtain ⟨value, hvalue⟩ := AttributeStore.exists_find?_eq_ok hnew hs.owns.1
  have hlists : ∀ {F : Type} {members : t.Carrier → Set F} {x : F}, kind.Unites members →
      ((∃ v, value = some v ∧ x ∈ members v) ↔
        ∃ r u, g.GoesTo target φ r s ∧ g.store.find? kind r = .ok (some u) ∧ x ∈ members u) := by
    intro F members x hmembers
    have hmerged := h.lists (x := x) hmembers hold hs
    rw [AttributeStore.lists_iff_find? hnew hs.owns.1, hvalue] at hmerged
    simp only [Except.ok.injEq] at hmerged
    rw [hmerged]
    constructor
    · rintro ⟨r, hr, hx⟩
      obtain ⟨u, hu, hx⟩ := (AttributeStore.lists_iff_find? hold (h.serial hr)).1 hx
      exact ⟨r, u, hr, hu, hx⟩
    · rintro ⟨r, u, hr, hu, hx⟩
      exact ⟨r, hr, (AttributeStore.lists_iff_find? hold (h.serial hr)).2 ⟨u, hu, hx⟩⟩
  refine ⟨value, hvalue, ⟨?_, fun habsent => ?_⟩, ?_⟩
  · rintro rfl r hr
    obtain ⟨found, hfound⟩ := AttributeStore.exists_find?_eq_ok hold (h.serial hr)
    cases found with
    | none => exact hfound
    | some u =>
      have hthere : ∃ r u, g.GoesTo target φ r s ∧ g.store.find? kind r = .ok (some u) ∧
          () ∈ (Set.univ : Set Unit) := ⟨r, u, hr, hfound, trivial⟩
      obtain ⟨v, hv, -⟩ := (hlists AttributeKind.unites_univ).2 hthere
      cases hv
  · cases value with
    | none => rfl
    | some v =>
      have hthere : ∃ v', some v = some v' ∧ () ∈ (Set.univ : Set Unit) := ⟨v, rfl, trivial⟩
      obtain ⟨r, u, hr, hu, -⟩ := (hlists AttributeKind.unites_univ).1 hthere
      rw [habsent r hr] at hu
      cases hu
  · rintro v rfl
    ext x
    rw [Set.mem_ofPred_eq, ← hlists hunites]
    simp

/-! ### Whole transformations -/

theorem exists_merges_of_settle (h : (g.settle alphabetize announce).Returns new) :
    ∃ φ, g.Merges new id φ .preserving alphabetize := by
  -- what was rebuilt so far has nodes of `g` merged, if anything was
  let kept (mid : Generation) : Prop := mid = g ∨ ∃ φ, g.Merges mid id φ .preserving alphabetize
  have hmerges : ∀ {last next}, kept last →
      last.Rebuilds (fixedPoint alphabetize announce) next →
        ∃ φ, g.Merges next id φ .preserving alphabetize := by
    rintro last next hlast hnext
    obtain ⟨ψ, hψ⟩ := hnext.exists_merges
    rcases hlast with rfl | ⟨φ, hφ⟩
    · exact ⟨ψ, hψ⟩
    · exact ⟨ψ ∘ φ, hφ.trans hψ⟩
  have hstep : ∀ mid, kept mid → (mid.rebuildOnce alphabetize announce).Ends (fun _ => True)
      (fun _ => True) fun next =>
        kept next ∧ mid.Rebuilds (fixedPoint alphabetize announce) next := by
    intro mid hmid
    have hends : (mid.rebuildOnce alphabetize announce).Ends _ _ _ :=
      rebuildOnce_ends (P := fun _ => True) fun _ _ _ => trivial
    refine ((hends.mono_bad fun _ _ => trivial).mono_lost fun _ _ => trivial).mono ?_
    exact fun next hnext => ⟨.inr (hmerges hmid hnext), hnext⟩
  have hfirst : kept g := .inl rfl
  obtain ⟨-, last, hlast, hnew, -⟩ := (settle_ends hstep hfirst).of_returns h
  exact hmerges hlast hnew

theorem exists_merges_of_substitute {map : OrderedMap Ref Ref} {force : Bool}
    (h : (g.substitute settings map force).Returns (.derived new)) :
    ∃ φ, g.Merges new (Plan.substitute map).target φ settings.mapping settings.alphabetize := by
  -- otherwise nothing would have been done
  have hdo : (map.isEmpty && !force) = false := by
    by_contra hnot
    obtain ⟨log, log', hrun⟩ := h
    rw [Bool.not_eq_false] at hnot
    rw [substitute] at hrun
    rw [hnot] at hrun
    cases hrun
  have hends : (g.substitute settings map force).Ends _ (fun _ => True) _ :=
    substitute_ends (P := fun _ => True) (fun _ _ _ => trivial) hdo fun _ _ _ =>
      Ends.of_forall (fun _ h => not_oneType_true h.types) fun _ _ _ => trivial
  obtain ⟨w, new', heq, hnew⟩ := hends.of_returns h
  obtain rfl := Outcome.derived.inj heq
  exact ⟨_, merges_of_direct hnew (not_forwarded_of_substitute hnew.finished)⟩

theorem exists_merges_of_removal
    (h : (g.removeIndirections alphabetize announce).Returns (.derived new)) :
    ∃ φ, g.Merges new id φ .preserving alphabetize := by
  have hends : (g.removeIndirections alphabetize announce).Ends _ _ _ :=
    removeIndirections_ends (P := fun _ => True) fun _ _ _ => trivial
  rcases hends.of_returns h with ⟨heq, -⟩ | ⟨w, new', heq, hnew⟩
  · cases heq
  · obtain rfl := Outcome.derived.inj heq
    exact ⟨_, merges_of_removal hnew⟩

theorem exists_merges_of_replace (h : (g.replace settings [] true).Returns (.derived new)) :
    ∃ φ, g.Merges new id φ settings.mapping settings.alphabetize := by
  have hends : (g.replace settings [] true).Ends _ _ _ :=
    replace_ends (P := fun _ => True) fun _ _ _ => trivial
  obtain ⟨new', heq, hnew⟩ := hends.of_returns h
  obtain rfl := Outcome.derived.inj heq
  exact hnew.exists_merges

/-- **The attributes of merged nodes are united.** Whatever a transformation without scripts
returns, be it a substitution, a collection, a removal of indirections, a rebuilding, or rebuilding
until nothing shrinks: its nodes are those of its source with some merged, and the value of a kind
that unites its values is at each of them the union of the values at the old nodes it has come from,
among them those that were substituted, whether they were reached or not, and the indirections that
were skipped. -/
theorem attributes_united (g new : Generation) :
    (∀ settings map force, (g.substitute settings map force).Returns (.derived new) →
      ∃ φ, g.Condenses new (Plan.substitute map).target φ settings.mapping settings.alphabetize ∧
        g.Gathers new (Plan.substitute map).target φ) ∧
    (∀ alphabetize announce,
      (g.collect alphabetize announce).Returns (.derived new) ∨
        (g.removeIndirections alphabetize announce).Returns (.derived new) ∨
        (g.settle alphabetize announce).Returns new →
      ∃ φ, g.Condenses new id φ .preserving alphabetize ∧ g.Gathers new id φ) ∧
    ∀ settings, (g.replace settings [] true).Returns (.derived new) →
      ∃ φ, g.Condenses new id φ settings.mapping settings.alphabetize ∧ g.Gathers new id φ := by
  have hboth : ∀ {target m a}, (∃ φ, g.Merges new target φ m a) →
      ∃ φ, g.Condenses new target φ m a ∧ g.Gathers new target φ := by
    rintro target m a ⟨φ, hφ⟩
    exact ⟨φ, hφ.toCondenses, hφ.gathers⟩
  refine ⟨fun settings map force h => hboth (exists_merges_of_substitute h),
    fun alphabetize announce h => hboth ?_,
    fun settings h => hboth (exists_merges_of_replace h)⟩
  rcases h with h | h | h
  · exact exists_merges_of_substitute h
  · exact exists_merges_of_removal h
  · exact exists_merges_of_settle h

/-- An array of strings, and a map of strings that is not part of it; each has a name. -/
def titled : Generation where
  options := ⟨false⟩
  nodes := #[.array ⟨0, 2⟩, .map ⟨0, 2⟩, .primitive .string]
  store :=
    { serial := 0
      slots := #[some (.singleton .names (.singleton "list")),
        some (.singleton .names (.singleton "table"))]
      roots := ∅ }
  roots := .ofList [("top", ⟨0, 0⟩)]
  announced := false
  children_inBounds := by decide
  roots_inBounds := by decide

theorem among_titled : titled.store.Among (Sole .names) := by
  refine AttributeStore.among_of_slots fun attributes hslot a ha _ => ?_
  have hslots : titled.store.slots.toList = [some (.singleton .names (.singleton "list")),
    some (.singleton .names (.singleton "table"))] := rfl
  simp only [hslots, List.mem_cons, List.not_mem_nil, or_false, Option.some.injEq] at hslot
  rcases hslot with rfl | rfl
  · obtain rfl := List.mem_singleton.1 ha
    rfl
  · obtain rfl := List.mem_singleton.1 ha
    rfl

/-- With the array put in place of the map, it has the names of both, although the map was never
part of the graph. -/
theorem attributes_united_titled :
    ∃ (new : Generation) (φ : Ref → Ref), (titled.substitute ⟨"rename", .preserving, false, false⟩
        (.ofList [(⟨0, 1⟩, ⟨0, 0⟩)]) false).Returns (.derived new) ∧
      ∃ v, new.store.find? .names (φ ⟨0, 0⟩) = .ok (some v) ∧ "list" ∈ v ∧ "table" ∈ v := by
  have hpasses : (titled.substitute ⟨"rename", .preserving, false, false⟩
      (.ofList [(⟨0, 1⟩, ⟨0, 0⟩)]) false).passes
        (fun out _ => (out.after titled).nodes.size = 2) = true := by decide +kernel
  obtain ⟨out, log, hrun, htest⟩ := Transform.exists_of_passes hpasses
  cases out with
  | unchanged => exact absurd htest (by decide)
  | derived new =>
    have hreturns : (titled.substitute ⟨"rename", .preserving, false, false⟩
        (.ofList [(⟨0, 1⟩, ⟨0, 0⟩)]) false).Returns (.derived new) := ⟨_, _, hrun⟩
    obtain ⟨φ, hφ, hgathers⟩ := (attributes_united titled new).1 _ _ _ hreturns
    have htop : ("top", (⟨0, 0⟩ : Ref)) ∈ titled.roots.entries := by decide
    have hmet : titled.Visits (Plan.substitute (.ofList [(⟨0, 1⟩, ⟨0, 0⟩)])).target ⟨0, 0⟩ :=
      .root htop
    have hreach : new.Reaches (φ ⟨0, 0⟩) := hφ.reaches_iff.2 ⟨_, hmet, rfl⟩
    obtain ⟨value, hvalue, habsent, hunion⟩ :=
      hgathers .names _ AttributeKind.unites_own.1 among_titled _ hreach
    have hthere : ∀ {x r u}, titled.GoesTo (Plan.substitute (.ofList [(⟨0, 1⟩, ⟨0, 0⟩)])).target φ r
        (φ ⟨0, 0⟩) → titled.store.find? .names r = .ok (some u) → x ∈ u →
          ∃ v, value = some v ∧ x ∈ v := by
      intro x r u hr hu hx
      cases value with
      | none => simp [habsent.1 rfl r hr] at hu
      | some v =>
        have hmem : x ∈ {x | x ∈ v} := by
          rw [hunion v rfl]
          exact ⟨r, u, hr, hu, hx⟩
        exact ⟨v, rfl, hmem⟩
    obtain ⟨v, rfl, hv⟩ := hthere (x := "list") (r := ⟨0, 0⟩) ⟨hmet, rfl⟩ rfl (by decide)
    obtain ⟨v', hv', hmem⟩ := hthere (x := "table") (r := ⟨0, 1⟩)
      ⟨hmet, (hφ.substituted ⟨0, 1⟩).symm⟩ rfl (by decide)
    obtain rfl := Option.some.inj hv'
    exact ⟨new, φ, hreturns, v, hvalue, hv, hmem⟩

end Generation

end SchemaGraph
