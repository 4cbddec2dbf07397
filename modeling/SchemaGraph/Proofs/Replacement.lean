import SchemaGraph.Proofs.Indirections

/-!
# Rebuilding the whole graph

A replacement without groups rebuilds everything that can be reached. Where a node on a cycle
turned out to exist already, its placeholder became an indirection, and a second derivation
removes these. `SchemaGraph.Generation.Rebuilds` lists the two ways in which this ends,
and `SchemaGraph.Generation.replace_ends` says that there is no other one but a fault in the
removal.

`SchemaGraph.Generation.settle_ends` is the induction for rebuilding until the number of
reachable nodes stops shrinking.
-/

namespace SchemaGraph

/-! ### Forwarded slots -/

/-- A workspace in which a slot was forwarded has an indirection. -/
theorem Derivation.Grown.exists_indirection {d : Derivation} {w : Workspace} (hw : d.Grown w)
    (hf : w.draft.forwarded = true) : ∃ r home, w.draft.Holds r (.indirection home) := by
  induction hw with
  | start => simp [workspace, Draft.ofGeneration] at hf
  | @step w w' hw h ih =>
    have hgrows := h.grows hw.sound
    have hkeep : w.draft.forwarded = true → ∃ r home, w'.draft.Holds r (.indirection home) := by
      intro hf
      obtain ⟨r, home, hr⟩ := ih hf
      exact ⟨r, home, hgrows.holds hr⟩
    cases h with
    | reserve => exact hkeep hf
    | share => exact hkeep hf
    | store => exact hkeep hf
    | @fold index node attributes known slot store hready hsettled hplace hfolds hid hstore =>
      have hslot := (hw.sound.placeholder hplace).1
      exact ⟨slot, known, Draft.holds_set_self hstore.serial hslot⟩
    | fill => exact hkeep hf
  | bindRoots _ _ _ ih => exact ih hf

namespace Generation

variable {g : Generation} {settings : Settings} {P : AnyKind → Prop}

/-! ### One rebuilding -/

/-- How a replacement without groups ends: with the rebuilt generation, or with what is left of
it without indirections if some slot was forwarded. -/
inductive Rebuilds (g : Generation) (settings : Settings) : Generation → Prop
  /-- No slot was forwarded. -/
  | direct {w : Workspace} {mid : Generation}
    (hmid : (g.derivation (.replace []) settings).Derives w mid)
    (hdirect : w.draft.forwarded = false) : g.Rebuilds settings mid
  /-- Some slot was forwarded, and the indirections are removed. -/
  | removing {w v : Workspace} {mid new : Generation}
    (hmid : (g.derivation (.replace []) settings).Derives w mid)
    (hforwarded : w.draft.forwarded = true)
    (hnew : (mid.derivation (.substitute mid.indirectionMap)
      (removal settings.alphabetize settings.announce)).Derives v new) : g.Rebuilds settings new

/-- A forwarded slot is an indirection of the new generation. -/
theorem exists_isIndirection {w : Workspace} {mid : Generation}
    (hmid : (g.derivation (.replace []) settings).Derives w mid)
    (hforwarded : w.draft.forwarded = true) : ∃ s, mid.IsIndirection s := by
  obtain ⟨r, home, hr⟩ := hmid.finished.grown.exists_indirection hforwarded
  obtain ⟨hserial, hnode⟩ := hmid.holds_iff.1 hr
  obtain ⟨s, hs, rfl⟩ := hmid.exists_image ⟨hserial, lt_size_of_node? hnode⟩
  exact ⟨_, hmid.reaches hs, home, hnode⟩

/-- **A replacement without groups rebuilds everything that can be reached.** It fails only if it
leaves indirections that run in circles. -/
theorem replace_ends (hg : g.store.Among P) :
    (g.replace settings [] true).Ends
      (fun f => ¬OneType P ∨ (f = .indirectionCycle ∧ ∃ w mid,
        (g.derivation (.replace []) settings).Derives w mid ∧ w.draft.forwarded = true ∧
          mid.IndirectionsCycle))
      (fun _ => g.MayLoseMarkers P)
      fun out => ∃ new, out = .derived new ∧ g.Rebuilds settings new := by
  have hfaultless : OneType P → (g.derivation (.replace []) settings).Faultless P :=
    fun htypes => ⟨rfl, fun _ hr => hr, htypes⟩
  have hderive : (g.derive (.replace []) settings fun _ => .ok ()).Ends _
      (fun _ => g.MayLoseMarkers P) _ := derive_ends hg rfl (fun _ _ => rfl) fun w mid hmid =>
    (lostMarkers?_ends_of_derives hg hmid fun _ hs => hs).mono_bad fun _ hnot h => hnot h.types
  rw [replace]
  refine (hderive.mono_bad fun f hbad => .inl fun htypes => hbad (hfaultless htypes)).bind ?_
  rintro ⟨mid, forwarded⟩ ⟨w, hmid, hforwarded⟩
  obtain rfl : forwarded = w.draft.forwarded := hforwarded
  cases hf : w.draft.forwarded with
  | false => exact Transform.ends_pure ⟨mid, rfl, .direct hmid hf⟩
  | true =>
    -- the removal tracks provenance if the rebuilding did
    have hlost : mid.MayLoseMarkers P ↔ g.MayLoseMarkers P := by
      rw [MayLoseMarkers, hmid.options]
      rfl
    have hamong : mid.store.Among P :=
      hmid.store ▸ hmid.finished.grown.among_old hmid.plan hg
    have hremoval : (mid.removeIndirections settings.alphabetize settings.announce).Ends _ _ _ :=
      removeIndirections_ends hamong
    simp only [hlost] at hremoval
    refine (hremoval.mono_bad fun f hbad => ?_).bind fun out hout => ?_
    · rcases hbad with h | ⟨rfl, hcycle⟩
      · exact .inl h
      · exact .inr ⟨rfl, w, mid, hmid, hf, hcycle⟩
    · rcases hout with ⟨rfl, hnone⟩ | ⟨v, new, rfl, hnew⟩
      · obtain ⟨s, hs⟩ := exists_isIndirection hmid hf
        exact absurd hs (hnone s)
      · exact Transform.ends_pure ⟨new, rfl, .removing hmid hf hnew⟩

/-- The kinds of attributes stay the same. -/
theorem Rebuilds.among {new : Generation} (h : g.Rebuilds settings new) (hg : g.store.Among P) :
    new.store.Among P := by
  cases h with
  | direct hmid _ => exact hmid.store ▸ hmid.finished.grown.among_old hmid.plan hg
  | removing hmid _ hnew =>
    have hmid' := hmid.finished.grown.among_old hmid.plan hg
    exact hnew.store ▸ hnew.finished.grown.among_old hnew.plan (hmid.store ▸ hmid')

theorem Rebuilds.options {new : Generation} (h : g.Rebuilds settings new) :
    new.options = g.options := by
  cases h with
  | direct hmid _ => exact hmid.options
  | removing hmid _ hnew => exact hnew.options.trans hmid.options

/-! ### Rebuilding until nothing shrinks -/

/-- What a rebuilding of the whole graph is told. -/
def fixedPoint (alphabetize announce : Bool) : Settings :=
  ⟨"fixed point", .preserving, alphabetize, announce⟩

variable {alphabetize announce : Bool}

theorem rebuildOnce_ends_of_replace {bad : Fault → Prop} {lost : LostMarkers → Prop}
    {good : Generation → Prop}
    (h : (g.replace (fixedPoint alphabetize announce) [] true).Ends bad lost fun out =>
      ∃ new, out = .derived new ∧ good new) :
    (g.rebuildOnce alphabetize announce).Ends bad lost good := by
  refine h.bind ?_
  rintro out ⟨new, hout, hnew⟩
  rw [hout]
  exact Transform.ends_pure hnew

theorem rebuildOnce_ends (hg : g.store.Among P) :
    (g.rebuildOnce alphabetize announce).Ends
      (fun f => ¬OneType P ∨ (f = .indirectionCycle ∧ ∃ w mid,
        (g.derivation (.replace []) (fixedPoint alphabetize announce)).Derives w mid ∧
          w.draft.forwarded = true ∧ mid.IndirectionsCycle))
      (fun _ => g.MayLoseMarkers P) fun new => g.Rebuilds (fixedPoint alphabetize announce) new :=
  rebuildOnce_ends_of_replace (replace_ends hg)

/-- **What each rebuilding keeps is kept until nothing shrinks**, and the last rebuilding did not
shrink the graph. -/
theorem settle_ends {bad : Fault → Prop} {lost : LostMarkers → Prop} {kept : Generation → Prop}
    {step : Generation → Generation → Prop}
    (hstep : ∀ g, kept g → (g.rebuildOnce alphabetize announce).Ends bad lost fun new =>
      kept new ∧ step g new) (hg : kept g) :
    (g.settle alphabetize announce).Ends bad lost fun new => kept new ∧ ∃ last, kept last ∧
      step last new ∧ ¬new.reachable.length < last.reachable.length := by
  induction hn : g.reachable.length using Nat.strong_induction_on generalizing g with
  | h n ih =>
    rw [settle]
    refine (hstep g hg).bind ?_
    rintro new ⟨hnew, hlast⟩
    by_cases hlt : new.reachable.length < g.reachable.length
    · rw [if_pos hlt]
      exact ih _ (hn ▸ hlt) hnew rfl
    · rw [if_neg hlt]
      exact Transform.ends_pure ⟨hnew, g, hg, hlast, hlt⟩

/-! ### A small graph that shrinks -/

/-- Two classes of the same properties, each of which leads to itself and to the other one. When
the graph is rebuilt, the first of them turns out to be the second one while its slot is pointed
to already. -/
def entwined : Generation where
  options := ⟨true⟩
  nodes := #[.object [⟨"next", ⟨0, 1⟩, false⟩, ⟨"first", ⟨0, 0⟩, true⟩],
    .object [⟨"next", ⟨0, 1⟩, false⟩, ⟨"first", ⟨0, 0⟩, true⟩]]
  store := .empty 0
  roots := .ofList [("top", ⟨0, 0⟩)]
  announced := false
  children_inBounds := by decide
  roots_inBounds := by decide

/-- No marker can be lost from a graph that has attributes of the library's own kinds only. -/
theorem not_mayLoseMarkers_ownKind : ¬g.MayLoseMarkers OwnKind :=
  fun h => h.2 unitesMarkers_ownKind

end Generation

end SchemaGraph
