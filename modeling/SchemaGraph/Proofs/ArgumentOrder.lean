import SchemaGraph.Proofs.GroupOrder
import SchemaGraph.Proofs.IdentityDrift
import SchemaGraph.Proofs.MarkerAudit
import SchemaGraph.Proofs.SubstitutionOrder
import SchemaGraph.Proofs.SubstitutionSafety

/-!
# The order of arguments

Whether a transformation depends on how its arguments are listed
(`SchemaGraph.Generation.carryOut_in_any_order`). A replacement does not, if the roots reach its groups:
the number of a group is written to the log and shows nowhere else. A substitution gives the same nodes
and roots as long as the order of its entries, in which attributes are merged, does not show in the
identities of nodes.

That is more than a matter of attributes. Where values of a kind that takes part in identity replace each
other, the last one that is merged into a node decides whether the node is one that there is already
(`SchemaGraph.Generation.not_forall_substitute_perm`).
-/

namespace SchemaGraph

/-! ### Groups -/

/-- The log without the numbers of groups. -/
def Log.unnumbered (l : Log) : Log := { l with events := l.events.map Event.unnumbered }

/-- Transformations that are in step but for the numbers of groups give the same. -/
theorem Transform.GoOn.map_unnumbered {α : Type} {t t' : Transform α} (h : t.GoOn .numbers Eq t')
    (log : Log) : (t.run.run log).map (fun out => (out.1, out.2.unnumbered)) =
      (t'.run.run log).map fun out => (out.1, out.2.unnumbered) := by
  have hlogs : ∀ {l l' : Log}, l.GoWith .numbers l' → l.unnumbered = l'.unnumbered := by
    rintro ⟨printed, events⟩ ⟨_, events'⟩ ⟨htext, hevents⟩
    obtain rfl : printed = _ := htext
    exact congrArg (Log.mk printed) hevents
  have hconcur := h log log ⟨rfl, rfl⟩
  cases hrun : t.run.run log <;> cases hrun' : t'.run.run log <;> rw [hrun, hrun'] at hconcur
  case error.error f f' => exact congrArg Except.error hconcur
  case ok.ok out out' =>
    obtain ⟨_ | a, l⟩ := out <;> obtain ⟨_ | a', l'⟩ := out' <;> obtain ⟨hl, hout⟩ := hconcur
    · exact congrArg Except.ok (Prod.ext (congrArg Except.error hout) (hlogs hl))
    · exact hout.elim
    · exact hout.elim
    · exact congrArg Except.ok (Prod.ext (congrArg Except.ok hout) (hlogs hl))
  all_goals exact hconcur.elim

/-! ### Substitutions -/

namespace Generation

variable {g h k : Generation}

/-- The generations `h` and `k`, derived from `g`, have the same nodes, roots and attributes of roots,
and on every node the same value of every orderless kind, if no other kind of `g` has its name. -/
structure Coincide (g h k : Generation) : Prop where
  options : h.options = k.options
  serial : h.serial = k.serial
  nodes : h.nodes = k.nodes
  roots : h.roots = k.roots
  announced : h.announced = k.announced
  rootAttributes : h.store.roots = k.store.roots
  values : ∀ {t : ValueType} (kind : AttributeKind t), kind.Orderless → g.store.Among (Sole kind) →
    ∀ r, h.store.find? kind r = k.store.find? kind r

/-- What two transformations of `g` end with: the same losses, nothing to do, or generations that
coincide. -/
def CoincideAfter (g : Generation) : Except LostMarkers Outcome → Except LostMarkers Outcome → Prop
  | .error e, .error e' => e = e'
  | .ok .unchanged, .ok .unchanged => True
  | .ok (.derived h), .ok (.derived k) => g.Coincide h k
  | _, _ => False

/-- Some node of the generation has an attribute of the kind. -/
def HasKind (g : Generation) (kind : AnyKind) : Prop :=
  ∃ index, ∃ a ∈ (g.store.atIndex index).toList, a.anyKind = kind

theorem among_hasKind : g.store.Among g.HasKind := fun index a ha => ⟨index, a, ha, rfl⟩

theorem settled_hasKind {t : ValueType} {kind : AttributeKind t} (h : kind.Orderless)
    (hsole : g.store.Among (Sole kind)) : Settled g.HasKind kind.name :=
  ⟨t, kind, rfl, h, by rintro _ ⟨index, a, ha, rfl⟩; exact hsole index a ha⟩

theorem Alike.coincide (h' : h.Alike (Settled g.HasKind) k) : g.Coincide h k where
  options := h'.options
  serial := h'.store.serial
  nodes := h'.nodes
  roots := h'.roots
  announced := h'.announced
  rootAttributes := h'.store.roots
  values _ horderless hsole _ := h'.store.find?_eq (settled_hasKind horderless hsole)

/-- **The order of arguments.** Groups that the roots reach may be listed in any order. The replacement
returns the same generation, loses the same markers or meets the same fault, and what it logs differs in
the numbers of groups alone. The entries of a substitution may be listed in any order that does not show
in what merged attributes add to identities. Both substitutions meet a fault, or both lose the same
markers, or what they return coincides. -/
theorem carryOut_in_any_order (g : Generation) (settings : Settings) (force : Bool) :
    (∀ groups groups' : List Group, groups.Perm groups' →
      (∀ group ∈ groups, group.members ≠ [] ∧ ∀ m ∈ group.members, m.serial = g.serial) →
      groups.Pairwise Plan.Apart → g.RootsReach settings groups → ∀ log,
        ((g.replace settings groups force).run.run log).map (fun out => (out.1, out.2.unnumbered)) =
          ((g.replace settings groups' force).run.run log).map fun out => (out.1, out.2.unnumbered)) ∧
    ∀ map map' : OrderedMap Ref Ref, map.entries.Perm map'.entries →
      g.KeepsIdentities settings map map' →
      (g.options.trackProvenance = true → g.store.Among (Sole .provenance)) → ∀ log,
        Concur (fun _ _ => True) (fun out out' => g.CoincideAfter out.1 out'.1)
          ((g.substitute settings map force).run.run log)
          ((g.substitute settings map' force).run.run log) := by
  constructor
  · intro groups groups' h hmembers hapart hroots log
    have hfits : (Plan.replace groups).fault? g.serial = none :=
      (Plan.groupsFault?_eq_none_iff .nil).2 ⟨hmembers, hapart⟩
    exact (replace_goOn h hfits hroots).map_unnumbered log
  · intro map map' h hkeeps htrack log
    have hgo : (g.substitute settings map force).GoOn .any (Outcome.Alike (Settled g.HasKind))
        (g.substitute settings map' force) :=
      substitute_goOn h among_hasKind hkeeps fun ht =>
        settled_hasKind AttributeKind.orderless_own.2.2 (htrack ht)
    refine (hgo log log ⟨trivial, trivial⟩).mono ?_
    rintro ⟨_ | o, l⟩ ⟨_ | o', l'⟩ ⟨-, hout⟩
    · exact hout
    · exact hout.elim
    · exact hout.elim
    · cases o <;> cases o'
      case unchanged.unchanged => trivial
      case derived.derived h k => exact Alike.coincide hout
      all_goals exact hout.elim

/-- The array and its strings are replaced, and the script of the array leads to the strings. -/
def turning : List Group :=
  [⟨[⟨0, 0⟩], fun slot => do
      let values ← Script.visit ⟨0, 1⟩
      Script.intern (.map values) ∅ (some slot)⟩,
    ⟨[⟨0, 1⟩], fun slot => Script.intern (.primitive .integer) ∅ (some slot)⟩]

/-- The truth value is put in place of the array and of its strings, -/
def gathering : OrderedMap Ref Ref := .ofList [(⟨0, 0⟩, ⟨0, 2⟩), (⟨0, 1⟩, ⟨0, 2⟩)]

/-- or of the strings and of the array. -/
def regathering : OrderedMap Ref Ref := .ofList [(⟨0, 1⟩, ⟨0, 2⟩), (⟨0, 0⟩, ⟨0, 2⟩)]

theorem admits_gathering : marked.Admits gathering := by
  have hentry : ∀ {r s}, gathering.find? r = some s →
      (r = ⟨0, 0⟩ ∨ r = ⟨0, 1⟩) ∧ s = ⟨0, 2⟩ := by
    intro r s hfind
    have hmem : (r, s) ∈ [((⟨0, 0⟩ : Ref), (⟨0, 2⟩ : Ref)), (⟨0, 1⟩, ⟨0, 2⟩)] :=
      OrderedMap.find?_eq_some_iff.1 hfind
    simpa [or_and_right] using hmem
  refine ⟨fun hfind => ?_, fun hfind => ?_, fun hfind => ?_⟩
  · rcases (hentry hfind).1 with rfl | rfl <;> rfl
  · exact (hentry hfind).2 ▸ ⟨rfl, by decide⟩
  · exact (hentry hfind).2 ▸ rfl

/-- The root leads to both groups, and the two nodes make way for a third one in either order. -/
theorem carryOut_in_any_order_marked :
    (∃ w, (marked.derivation (.replace turning) cover).rebuildRoots
        (marked.derivation (.replace turning) cover).workspace = .ok ((), w) ∧
      ∀ group ∈ turning, w.met group = true) ∧
    ((marked.replace cover turning false).run.run ⟨"", []⟩).map
        (fun out => (out.1, out.2.unnumbered)) =
      ((marked.replace cover turning.reverse false).run.run ⟨"", []⟩).map
        (fun out => (out.1, out.2.unnumbered)) ∧
    ∃ out out', (marked.substitute cover gathering false).run.run ⟨"", []⟩ = .ok out ∧
      (marked.substitute cover regathering false).run.run ⟨"", []⟩ = .ok out' ∧
        marked.CoincideAfter out.1 out'.1 := by
  obtain ⟨hreplace, hsubstitute⟩ := carryOut_in_any_order marked cover false
  have hmet : (((marked.derivation (.replace turning) cover).rebuildRoots
      (marked.derivation (.replace turning) cover).workspace).toOption.any fun out =>
        turning.all fun group => out.2.met group) = true := by decide +kernel
  obtain ⟨w, hroots, hall⟩ : ∃ w, (marked.derivation (.replace turning) cover).rebuildRoots
      (marked.derivation (.replace turning) cover).workspace = .ok ((), w) ∧
        ∀ group ∈ turning, w.met group = true := by
    cases hrun : (marked.derivation (.replace turning) cover).rebuildRoots
        (marked.derivation (.replace turning) cover).workspace with
    | error f => simp [hrun, Except.toOption] at hmet
    | ok out =>
      rw [hrun] at hmet
      exact ⟨out.2, rfl, List.all_eq_true.1 hmet⟩
  refine ⟨⟨w, hroots, hall⟩, ?_, ?_⟩
  · have hapart : turning.Pairwise Plan.Apart := by simp [turning, Plan.Apart]
    have hreach : marked.RootsReach cover turning := fun w' hw' => by
      obtain rfl : w = w' := (Prod.mk.inj (Except.ok.inj (hroots.symm.trans hw'))).2
      exact hall
    exact hreplace turning turning.reverse turning.reverse_perm.symm (by decide) hapart hreach ⟨"", []⟩
  · have hown : marked.store.Among OwnKind := among_marked (.inr (.inr rfl))
    have hperm : gathering.entries.Perm regathering.entries := List.Perm.swap _ _ _
    have hkeeps : marked.KeepsIdentities cover gathering regathering := by
      refine keepsIdentities_of_settled hperm hown admits_gathering.fault?_eq_none fun k hk => .inl ?_
      rcases hk with rfl | rfl | rfl <;> rfl
    have hkinds : marked.options.trackProvenance = true → marked.store.Among (Sole .provenance) :=
      fun _ => among_marked fun _ => rfl
    obtain ⟨-, -, hends⟩ := substitute_never_faults oneType_ownKind hown admits_gathering cover false
    -- nothing else depends on what the transformation is, and it should not be computed
    generalize marked.substitute cover = carried at hends hsubstitute ⊢
    obtain ⟨out, hrun, -⟩ := (hends ⟨"", []⟩).exists_ok fun _ => id
    obtain ⟨out', hrun', hout⟩ :=
      (hsubstitute gathering regathering hperm hkeeps hkinds ⟨"", []⟩).exists_ok hrun
    exact ⟨out, out', hrun, hrun', hout⟩

/-- Two strings, an integer and a truth value in a class; all but the first string are tagged. -/
def labelled : Generation where
  options := ⟨false⟩
  nodes := #[.primitive .string, .primitive .integer, .primitive .bool, .primitive .string,
    .object [⟨"p", ⟨0, 0⟩, false⟩, ⟨"q", ⟨0, 3⟩, false⟩, ⟨"r", ⟨0, 1⟩, false⟩, ⟨"s", ⟨0, 2⟩, false⟩]]
  store :=
    { serial := 0
      slots := #[none, some (.singleton Draft.tag "x"), some (.singleton Draft.tag "y"),
        some (.singleton Draft.tag "x")]
      roots := ∅ }
  roots := .ofList [("top", ⟨0, 4⟩)]
  announced := false
  children_inBounds := by decide
  roots_inBounds := by decide

/-- **The order of a substitution shows in the nodes.** The first string takes the place of the integer
and of the truth value. If it is tagged like the second string in the end, the two are one node. -/
theorem not_forall_substitute_perm :
    ¬∀ (g : Generation) (settings : Settings) (map map' : OrderedMap Ref Ref) (force : Bool)
      (h k : Generation), map.entries.Perm map'.entries →
      (g.substitute settings map force).Returns (.derived h) →
      (g.substitute settings map' force).Returns (.derived k) → h.nodes = k.nodes := by
  intro hall
  have hderives : ∀ {map : OrderedMap Ref Ref} {n : Nat}, n ≠ labelled.nodes.size →
      (labelled.substitute cover map false).passes
        (fun out _ => (out.after labelled).nodes.size = n) = true →
      ∃ h, (labelled.substitute cover map false).Returns (.derived h) ∧ h.nodes.size = n := by
    intro map n hn hpasses
    obtain ⟨out, log, hrun, hsize⟩ := Transform.exists_of_passes hpasses
    cases out with
    | unchanged => exact absurd (of_decide_eq_true hsize).symm hn
    | derived h => exact ⟨h, ⟨_, _, hrun⟩, of_decide_eq_true hsize⟩
  have hapart : (labelled.substitute cover (.ofList [(⟨0, 1⟩, ⟨0, 0⟩), (⟨0, 2⟩, ⟨0, 0⟩)]) false).passes
      (fun out _ => (out.after labelled).nodes.size = 3) = true := by decide +kernel
  have honce : (labelled.substitute cover (.ofList [(⟨0, 2⟩, ⟨0, 0⟩), (⟨0, 1⟩, ⟨0, 0⟩)]) false).passes
      (fun out _ => (out.after labelled).nodes.size = 2) = true := by decide +kernel
  obtain ⟨h, hreturns, hthree⟩ := hderives (by decide) hapart
  obtain ⟨k, hreturns', htwo⟩ := hderives (by decide) honce
  rw [hall _ _ _ _ _ h k (List.Perm.swap _ _ _) hreturns hreturns', htwo] at hthree
  cases hthree

end Generation

end SchemaGraph
