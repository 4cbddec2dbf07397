import Mathlib.Logic.Relation
import SchemaGraph.Proofs.Condensing

/-!
# Intersections that collapse

Removing indirections replaces each indirection of a generation by the node at the end of its chain
(`SchemaGraph.Generation.Skips`), but the generation that comes out may have indirections all the
same. The chains are read off the old generation. An intersection of several members is no
indirection there, and yet it becomes one if all its members become one node: because some are
indirections to others, or because nodes are stored once. It collapses
(`SchemaGraph.Generation.Collapses`), and nothing looks at it again.

This is the only way: an indirection of the new generation is always an intersection that has
collapsed (`SchemaGraph.Generation.Skips.leadsTo_iff`), so there is none if no intersection of
several members could be reached in the old one.
-/

namespace SchemaGraph

/-- A set made of images is a singleton if there are members, and all have the same image. -/
theorem SortedSet.ofList_map_eq_singleton_iff {f : Ref → Ref} {cs : List Ref} {t : Ref} :
    SortedSet.ofList (cs.map f) = .singleton t ↔ cs ≠ [] ∧ ∀ c ∈ cs, f c = t := by
  have hsingle : ∀ a, a ∈ SortedSet.singleton t ↔ a = t := fun a => List.mem_singleton
  constructor
  · intro h
    have hmem : ∀ a, a ∈ cs.map f ↔ a = t := fun a => by
      rw [← SortedSet.mem_ofList, h, hsingle]
    refine ⟨fun hnil => ?_, fun c hc => (hmem _).1 (List.mem_map_of_mem hc)⟩
    simpa [hnil] using (hmem t).2 rfl
  · rintro ⟨hne, hall⟩
    refine SortedSet.ext Ref.lt_irrefl fun a => ?_
    rw [SortedSet.mem_ofList, hsingle]
    constructor
    · intro ha
      obtain ⟨c, hc, rfl⟩ := List.mem_map.1 ha
      exact hall c hc
    · rintro rfl
      obtain ⟨c, hc⟩ := List.exists_mem_of_ne_nil cs hne
      exact hall c hc ▸ List.mem_map_of_mem hc

/-- Replacing children makes an indirection of an intersection all of whose members become one, and
of nothing else. -/
theorem Node.canonical_mapChildren_eq_indirection_iff {f : Ref → Ref} {n : Node} {t : Ref}
    {m : StringMapping} {a : Bool} :
    (n.mapChildren f).canonical m a = .indirection t ↔
      ∃ members, n = .intersection members ∧ members.toList ≠ [] ∧
        ∀ c ∈ members.toList, f c = t := by
  constructor
  · intro h
    have hkind : n.kind = .intersection := by
      rw [← Node.kind_mapChildren (f := f), ← Node.kind_canonical_eq_intersection_iff, h]
      rfl
    cases n with
    | intersection members =>
      exact ⟨members, rfl, SortedSet.ofList_map_eq_singleton_iff.1 (Node.intersection.inj h)⟩
    | _ => simp [Node.kind] at hkind
  · rintro ⟨members, rfl, hne, hall⟩
    exact congrArg Node.intersection (SortedSet.ofList_map_eq_singleton_iff.2 ⟨hne, hall⟩)

namespace Generation

variable {g new : Generation} {φ : Ref → Ref} {r s t : Ref} {alphabetize announce : Bool}
  {w : Workspace} {P : AnyKind → Prop}

/-! ### Skipped indirections -/

/-- The node `r` can be reached and is an indirection to `t`. -/
def LeadsTo (g : Generation) (r t : Ref) : Prop :=
  g.Reaches r ∧ g.node? r.index = some (.indirection t)

theorem isIndirection_iff : g.IsIndirection r ↔ ∃ t, g.LeadsTo r t :=
  exists_and_left.symm

/-- An intersection of several members that can be reached, all of which `φ` sends to `t`. -/
def Collapses (g : Generation) (φ : Ref → Ref) (r t : Ref) : Prop :=
  g.Reaches r ∧ ∃ members, g.node? r.index = some (.intersection members) ∧ 1 < members.size ∧
    ∀ c ∈ members.toList, φ c = t

/-- A node is an indirection to some node, or it is not, which an intersection shows by the number
of its members. -/
theorem not_isIndirection_iff {members : SortedSet Ref} (hr : g.Reaches r)
    (hnode : g.node? r.index = some (.intersection members)) (hne : members.toList ≠ []) :
    ¬g.IsIndirection r ↔ 1 < members.size := by
  obtain ⟨c, rest, hlist⟩ := List.exists_cons_of_ne_nil hne
  have hsingle : (∃ t, members = .singleton t) ↔ rest = [] := by
    constructor
    · rintro ⟨t, rfl⟩
      exact (List.cons.inj hlist).2.symm
    · rintro rfl
      obtain ⟨toList, sorted⟩ := members
      obtain rfl : toList = [c] := hlist
      exact ⟨c, rfl⟩
  have hind : g.IsIndirection r ↔ ∃ t, members = .singleton t := by
    refine (and_iff_right hr).trans (exists_congr fun t => ?_)
    rw [hnode, Node.indirection, Option.some.injEq, Node.intersection.injEq]
  rw [hind, hsingle, SortedSet.size, hlist, List.length_cons, ← ne_eq, ← List.length_pos_iff]
  omega

/-- The nodes of `g` have become those of `new` by `φ`, which sends an indirection where the node
goes that it stands for. Any other node that can be reached is stored where it goes, with its
children replaced by what they have become. -/
structure Skips (g new : Generation) (φ : Ref → Ref) (alphabetize : Bool) : Prop where
  roots : new.roots.entries = g.roots.entries.map fun e => (e.1, φ e.2)
  skipped : ∀ {r t}, g.LeadsTo r t → φ r = φ t
  stored : ∀ {r}, g.Reaches r → ¬g.IsIndirection r → ∃ n, g.node? r.index = some n ∧
    new.node? (φ r).index = some ((n.mapChildren φ).canonical .preserving alphabetize)
  reaches_iff : ∀ {s}, new.Reaches s ↔ ∃ r, g.Reaches r ∧ ¬g.IsIndirection r ∧ φ r = s

/-- The substitution of indirections by the ends of their chains skips them. -/
theorem skips_of_derives
    (h : (g.derivation (.substitute g.indirectionMap) (removal alphabetize announce)).Derives w
      new) : g.Skips new ((g.derivation (.substitute g.indirectionMap)
        (removal alphabetize announce)).imageOf w) alphabetize := by
  have hends : g.EndsWell := plan_fault?_eq_none.1 h.plan
  have hvisits : ∀ {r}, g.Reaches r → ¬g.IsIndirection r →
      g.Visits (Plan.substitute g.indirectionMap).target r := fun hr hnot => by
    have hmet := visits_indirectionEnd hends hr
    rwa [target_indirectionMap, indirectionEnd_of_not hnot] at hmet
  let φ := (g.derivation (.substitute g.indirectionMap) (removal alphabetize announce)).imageOf w
  have hend : ∀ r, φ (g.indirectionEnd r) = φ r := fun r =>
    target_indirectionMap ▸ h.imageOf_target
  exact
    { roots := h.roots ▸ h.finished.roots
      skipped := fun {r t} hrt => by
        change φ r = φ t
        rw [← hend r, indirectionEnd_eq_of_child hends hrt.1 hrt.2, hend]
      stored := fun hr hnot =>
        h.node_of_direct (not_forwarded_of_substitute h.finished) (hvisits hr hnot)
      reaches_iff := fun {s} => by
        constructor
        · intro hs
          obtain ⟨r, hr, rfl⟩ := h.exists_image hs.owns
          have hreached := reaches_of_visits hends hr
          exact ⟨r, hreached.1, hreached.2, rfl⟩
        · rintro ⟨r, hr, hnot, rfl⟩
          exact h.reaches (hvisits hr hnot) }

/-! ### Indirections that are left -/

/-- **Where indirections are skipped, those that come out are the intersections that collapse.** -/
theorem Skips.leadsTo_iff (h : g.Skips new φ alphabetize) :
    new.LeadsTo s t ↔ ∃ r, g.Collapses φ r t ∧ φ r = s := by
  constructor
  · rintro ⟨hs, hnew⟩
    obtain ⟨r, hr, hnot, rfl⟩ := h.reaches_iff.1 hs
    obtain ⟨n, hn, hstored⟩ := h.stored hr hnot
    obtain ⟨members, rfl, hne, hall⟩ := Node.canonical_mapChildren_eq_indirection_iff.1
      (Option.some.inj (hstored.symm.trans hnew))
    exact ⟨r, ⟨hr, members, hn, (not_isIndirection_iff hr hn hne).1 hnot, hall⟩, rfl⟩
  · rintro ⟨r, ⟨hr, members, hn, hsize, hall⟩, rfl⟩
    have hne : members.toList ≠ [] := List.ne_nil_of_length_pos (Nat.lt_of_succ_lt hsize)
    have hnot := (not_isIndirection_iff hr hn hne).2 hsize
    obtain ⟨n, hn', hstored⟩ := h.stored hr hnot
    obtain rfl : Node.intersection members = n := Option.some.inj (hn.symm.trans hn')
    refine ⟨h.reaches_iff.2 ⟨r, hr, hnot, rfl⟩, hstored.trans (congrArg some ?_)⟩
    exact Node.canonical_mapChildren_eq_indirection_iff.2 ⟨members, rfl, hne, hall⟩

/-- **What the removal of indirections leaves behind**: it fails only if the indirections run in
circles, and does nothing if there are none. Otherwise each is skipped, and the indirections of the
new generation are exactly the intersections of several members that have become one node. In
particular there are none if every intersection that could be reached had a single member. -/
theorem removeIndirections_leaves (hg : g.store.Among P) :
    (g.removeIndirections alphabetize announce).Ends
      (fun f => ¬OneType P ∨ (f = .indirectionCycle ∧ g.IndirectionsCycle))
      (fun _ => g.MayLoseMarkers P) fun out =>
        (out = .unchanged ∧ ∀ r, ¬g.IsIndirection r) ∨
          ∃ new φ, out = .derived new ∧ g.Skips new φ alphabetize ∧
            (∀ s t, new.LeadsTo s t ↔ ∃ r, g.Collapses φ r t ∧ φ r = s) ∧
            ((∀ r members, g.Reaches r → g.node? r.index = some (.intersection members) →
              members.size ≤ 1) → ∀ s, ¬new.IsIndirection s) := by
  refine (removeIndirections_ends hg).mono fun out hout => ?_
  rcases hout with hnone | ⟨w, new, rfl, hnew⟩
  · exact .inl hnone
  · have hskips := skips_of_derives hnew
    refine .inr ⟨new, _, rfl, hskips, fun s t => hskips.leadsTo_iff, fun hsingle s hs => ?_⟩
    obtain ⟨t, hst⟩ := isIndirection_iff.1 hs
    obtain ⟨r, ⟨hr, members, hn, hsize, -⟩, -⟩ := hskips.leadsTo_iff.1 hst
    exact absurd (hsingle r members hr hn) (Nat.not_le.2 hsize)

/-! ### An indirection inside another intersection -/

/-- The intersection of strings with an indirection to them. -/
def nested : Generation where
  options := ⟨false⟩
  nodes := #[.primitive .string, .indirection ⟨0, 0⟩, .intersection (.ofList [⟨0, 0⟩, ⟨0, 1⟩])]
  store := .empty 0
  roots := .ofList [("top", ⟨0, 2⟩)]
  announced := false
  children_inBounds := by decide
  roots_inBounds := by decide

theorem indirections_nested : nested.indirections = [(⟨0, 1⟩, ⟨0, 0⟩)] := by
  have hroots : nested.roots.values = [⟨0, 2⟩] := rfl
  have hindices : List.range nested.size = [0, 1, 2] := rfl
  have hstring : nested.childrenAt 0 = [] := rfl
  have hlink : nested.childrenAt 1 = [⟨0, 0⟩] := rfl
  have hboth : nested.childrenAt 2 = [⟨0, 0⟩, ⟨0, 1⟩] := rfl
  have hreachable : nested.reachable = [⟨0, 2⟩, ⟨0, 0⟩, ⟨0, 1⟩] := by
    simp [reachable, hroots, hindices, walk, hstring, hlink, hboth]
  rw [indirections, hreachable]
  rfl

/-- Its removal returns an indirection. -/
theorem returns_nested : ∃ new, (nested.removeIndirections false false).Returns (.derived new) ∧
    new.roots.entries = [("top", ⟨1, 1⟩)] ∧ new.node? 1 = some (.indirection ⟨1, 0⟩) := by
  have hpasses : (nested.removeIndirections false false).passes
      (fun out _ => (out.after nested).roots.entries = [("top", ⟨1, 1⟩)] ∧
        (out.after nested).node? 1 = some (.indirection ⟨1, 0⟩)) = true := by
    rw [removeIndirections, indirections_nested]
    decide +kernel
  obtain ⟨out, log, hrun, htest⟩ := Transform.exists_of_passes hpasses
  cases out with
  | unchanged => exact absurd htest (by decide)
  | derived new => exact ⟨new, ⟨_, _, hrun⟩, of_decide_eq_true htest⟩

/-- The two members are one node once the indirection is skipped, so that their intersection is an
indirection. -/
theorem removeIndirections_nested : ∃ new φ,
    (nested.removeIndirections false false).Returns (.derived new) ∧
      nested.Collapses φ ⟨0, 2⟩ (φ ⟨0, 0⟩) ∧ new.LeadsTo (φ ⟨0, 2⟩) (φ ⟨0, 0⟩) := by
  obtain ⟨new, hreturns, -⟩ := returns_nested
  have htop : nested.Reaches ⟨0, 2⟩ := .root (List.mem_singleton.2 rfl)
  have hends : (nested.removeIndirections false false).Ends _ _ _ :=
    removeIndirections_leaves (P := OwnKind) AttributeStore.among_empty
  rcases hends.of_returns hreturns with ⟨hnot, -⟩ | ⟨_, φ, heq, hskips, hleft, -⟩
  · cases hnot
  · obtain rfl := Outcome.derived.inj heq
    have hmember : nested.LeadsTo ⟨0, 1⟩ ⟨0, 0⟩ := ⟨htop.child rfl (by decide), rfl⟩
    have hcollapses : nested.Collapses φ ⟨0, 2⟩ (φ ⟨0, 0⟩) := by
      refine ⟨htop, _, rfl, by decide, fun c hc => ?_⟩
      have hpair : c ∈ [(⟨0, 0⟩ : Ref), ⟨0, 1⟩] := hc
      rcases List.mem_pair.1 hpair with rfl | rfl
      · rfl
      · exact hskips.skipped hmember
    exact ⟨new, φ, hreturns, hcollapses, (hleft _ _).2 ⟨_, hcollapses, rfl⟩⟩

/-- Indirections may be left although those that were there do not run in circles. -/
theorem not_forall_indirections_removed : ¬∀ (g new : Generation) (alphabetize announce : Bool),
    (∀ r, ¬Relation.TransGen g.LeadsTo r r) →
      (g.removeIndirections alphabetize announce).Returns (.derived new) →
        ∀ s, ¬new.IsIndirection s := by
  intro hall
  obtain ⟨new, hreturns, hroots, hnode⟩ := returns_nested
  have hacyclic : ∀ r, ¬Relation.TransGen nested.LeadsTo r r := by
    intro r hcycle
    -- the only indirection leads to a node that is none
    have hlink : ∀ {s t}, nested.LeadsTo s t → s = ⟨0, 1⟩ ∧ t = ⟨0, 0⟩ := fun hst => by
      simpa [indirections_nested] using mem_indirections_iff.2 hst
    obtain ⟨t, hrt, -⟩ := Relation.TransGen.head'_iff.1 hcycle
    obtain ⟨s, -, hsr⟩ := Relation.TransGen.tail'_iff.1 hcycle
    have heq : (⟨0, 1⟩ : Ref) = ⟨0, 0⟩ := (hlink hrt).1.symm.trans (hlink hsr).2
    exact absurd heq (by decide)
  have htop : new.Reaches ⟨1, 1⟩ := .root (hroots ▸ List.mem_singleton.2 rfl)
  exact hall nested new false false hacyclic hreturns ⟨1, 1⟩ ⟨htop, _, hnode⟩

end Generation

end SchemaGraph
