import SchemaGraph.Proofs.FixedPoint
import SchemaGraph.Proofs.Rebuild.CourseOfRun
import SchemaGraph.Proofs.Rebuild.Kinds

/-!
# The audit of markers

With provenance tracking on, a transformation compares the markers of its source with those of the
generation it has built, unless a script declared a loss, and fails with the difference if there is
any (`SchemaGraph.Generation.carryOut_audits`). What it compares is not what it returns: a
replacement may still remove indirections. But that removal is a derivation with an audit of its
own, so along any chain of transformations that return, no marker is lost
(`SchemaGraph.Generation.Preserves`).

Whether the removal itself could fail is another question. It merges the attributes of an
indirection into those of the node at its end, so it loses no marker as long as markers are united,
that is if the kind under the name of provenance is the library's own. The same goes for every
transformation that keeps all nodes (`SchemaGraph.Generation.never_loses`).
-/

namespace SchemaGraph

namespace Transform

variable {α : Type} {t : Transform α} {bad : Fault → Prop} {lost : LostMarkers → Prop}
  {good : α → Prop}

/-- The transformation never fails for lost markers. -/
def NeverLoses (t : Transform α) : Prop := ∀ log log' e, t.run.run log ≠ .ok (.error e, log')

theorem Ends.neverLoses (h : t.Ends bad lost good) (hlost : ∀ e, ¬lost e) : t.NeverLoses :=
  fun log _ e heq => hlost e ((h log).of_eq_ok heq)

end Transform

namespace Generation

variable {g h new : Generation} {r : Ref} {marker : Nat}

/-! ### Markers on reachable nodes -/

/-- Whether a generation announces itself makes no difference to its markers. -/
theorem shows_announced {announced : Bool} (hg : g.Shows marker) :
    ({ g with announced } : Generation).Shows marker := by
  obtain ⟨r, found, hr, hfind, hmarker⟩ := hg
  exact ⟨r, found, reaches_announced_iff.2 hr, hfind, hmarker⟩

/-- The failure names the transformation, and lists in ascending order what was lost. -/
structure LossReported (before after : Generation) (title : String) (e : LostMarkers) : Prop where
  title : e.title = title
  count : e.count = e.missing.length
  ascending : e.missing.Pairwise (· < ·)
  mem : ∀ marker, marker ∈ e.missing ↔ before.Shows marker ∧ ¬after.Shows marker

/-- **The audit** finds what is missing, if anything is. -/
theorem lostMarkers?_audits {before after : Generation} {title : String} {bad : Fault → Prop}
    (htrack : before.options.trackProvenance = true)
    (hbefore : Ends before.markers bad fun _ => True)
    (hafter : Ends after.markers bad fun _ => True) :
    Ends (before.lostMarkers? after title) bad fun lost =>
      (lost = none ∧ ∀ marker, before.Shows marker → after.Shows marker) ∨
        ∃ e, lost = some e ∧ before.LossReported after title e ∧
          ∃ marker, before.Shows marker ∧ ¬after.Shows marker := by
  rw [lostMarkers?, htrack]
  refine (hafter.and markers_shows).bind fun kept hkept => ?_
  refine (hbefore.and markers_shows).bind fun found hfound => ?_
  have hmem : ∀ marker, marker ∈ (found.diff kept).toList ↔
      before.Shows marker ∧ ¬after.Shows marker := by
    intro marker
    rw [← hkept.2, ← hfound.2]
    exact (List.mem_filter.trans (by simp [SortedSet.mem_def]))
  by_cases hempty : (found.diff kept).toList.isEmpty
  · refine .inl ⟨if_pos hempty, fun marker hbefore => ?_⟩
    by_contra hafter
    have hin := (hmem marker).2 ⟨hbefore, hafter⟩
    simp [List.isEmpty_iff.1 hempty] at hin
  · obtain ⟨marker, hin⟩ := List.exists_mem_of_ne_nil _ (mt List.isEmpty_iff.2 hempty)
    exact .inr ⟨_, if_neg hempty, ⟨rfl, rfl, (found.diff kept).sorted, hmem⟩, marker,
      (hmem marker).1 hin⟩

/-! ### Derivations -/

/-- The later generation has the switches of the earlier one, and all its markers. -/
structure Preserves (g h : Generation) : Prop where
  options : h.options = g.options
  shows : ∀ marker, g.Shows marker → h.Shows marker

theorem Preserves.refl (g : Generation) : g.Preserves g := ⟨rfl, fun _ => id⟩

theorem Preserves.trans {k : Generation} (hgh : g.Preserves h) (hhk : h.Preserves k) :
    g.Preserves k :=
  ⟨hhk.options.trans hgh.options, fun marker => hhk.shows marker ∘ hgh.shows marker⟩

theorem preserves_announced {announced : Bool} :
    g.Preserves { g with announced } :=
  ⟨rfl, fun _ => shows_announced⟩

end Generation

/-- The derivation runs to a workspace, which is frozen to a generation. -/
structure Derivation.Builds (d : Derivation) (w : Workspace) (built : Generation) : Prop where
  run : d.run = .ok w
  frozen : Generation.ofDraft w.draft = .ok built

/-- The switches of a graph go from one generation to the next. -/
theorem Derivation.Builds.options {d : Derivation} {w : Workspace} {built : Generation}
    (h : d.Builds w built) : built.options = d.old.options := by
  rw [(Generation.of_ofDraft h.frozen).1]
  obtain ⟨old, plan, mapping, alphabetize⟩ := d
  cases plan with
  | replace groups =>
    obtain ⟨-, w₁, -, h₁, h₂⟩ := course_of_run rfl h.run
    obtain ⟨_, hcourse₁⟩ := h₁.course
    obtain ⟨_, hcourse₂⟩ := h₂.course
    exact hcourse₂.extends.options.trans hcourse₁.extends.options
  | substitute map =>
    exact ((run_ends (P := fun _ => True) (fun _ _ _ => trivial) rfl).of_eq_ok h.run).2.options

/-- What is built has no other kind under the name of provenance if the old generation has none and
the scripts write none. -/
theorem Derivation.Builds.among {d : Derivation} {w : Workspace} {built : Generation}
    (h : d.Builds w built) (hold : d.old.store.Among (Sole .provenance))
    (hscripts : ∀ group ∈ d.plan.groups, ∀ slot,
      (group.script slot).Writes (Sole .provenance)) : built.store.Among (Sole .provenance) := by
  rw [(Generation.of_ofDraft h.frozen).2.2.1]
  exact Derivation.run_among (fun _ => rfl) hold hscripts h.run

namespace Generation

variable {g h : Generation} {settings : Settings} {plan : Plan} {force : Bool}

/-- How a derivation fails the audit: the markers that were lost are reported. -/
def FailsAudit (g : Generation) (plan : Plan) (settings : Settings) (e : LostMarkers) : Prop :=
  ∃ w built, (g.derivation plan settings).Builds w built ∧ w.lossDeclared = false ∧
    g.LossReported built settings.title e ∧ ∃ marker, g.Shows marker ∧ ¬built.Shows marker

/-- **A derivation is audited**, unless a script declared a loss. -/
theorem derive_audits {accept : Workspace → Except Fault Unit}
    (htrack : g.options.trackProvenance = true) :
    (g.derive plan settings accept).Ends (fun _ => True) (g.FailsAudit plan settings)
      fun out => ∃ w built, (g.derivation plan settings).Builds w built ∧
        out = ({ built with announced := g.announced }, w.draft.forwarded) ∧
        (w.lossDeclared = false → g.Preserves built) := by
  refine derive_ends_of Ends.anyhow (Ends.self.mono fun w hrun => ⟨Ends.anyhow, ?_⟩)
  refine Ends.self.mono fun built hbuilt => ⟨Ends.anyhow, ?_⟩
  have hbuilds : (g.derivation plan settings).Builds w built := ⟨hrun, hbuilt⟩
  rw [audit?]
  by_cases hdeclared : w.lossDeclared
  · rw [if_pos hdeclared]
    exact ⟨w, built, hbuilds, rfl, fun h => by simp [hdeclared] at h⟩
  · rw [if_neg hdeclared]
    refine (lostMarkers?_audits htrack Ends.anyhow Ends.anyhow).mono fun found hfound => ?_
    -- the audited generation differs from the one that was built in that it may announce itself
    have hback : ∀ marker, ({ built with announced := g.announced } : Generation).Shows marker →
        built.Shows marker := fun _ => shows_announced
    rcases hfound with ⟨rfl, hkept⟩ | ⟨e, rfl, hreported, marker, hbefore, hafter⟩
    · exact ⟨w, built, hbuilds, rfl, fun _ =>
        ⟨hbuilds.options, fun marker hg => hback marker (hkept marker hg)⟩⟩
    · have hreported' : g.LossReported built settings.title e :=
        { hreported with mem := fun m => (hreported.mem m).trans (and_congr_right fun _ =>
            not_congr ⟨hback m, shows_announced⟩) }
      exact ⟨w, built, hbuilds, Bool.eq_false_iff.2 hdeclared, hreported', marker, hbefore,
        fun hshown => hafter (shows_announced hshown)⟩

/-- **A substitution is audited.** -/
theorem substitute_audits {map : OrderedMap Ref Ref} (htrack : g.options.trackProvenance = true)
    (hdo : (map.isEmpty && !force) = false) :
    (g.substitute settings map force).Ends (fun _ => True) (g.FailsAudit (.substitute map) settings)
      fun out => ∃ w built, (g.derivation (.substitute map) settings).Builds w built ∧
        (w.lossDeclared = false → g.Preserves built) ∧ built.Preserves (out.after g) := by
  rw [substitute, hdo]
  refine (derive_audits htrack).bind ?_
  rintro _ ⟨w, built, hbuilds, rfl, hkept⟩
  exact Transform.ends_pure ⟨w, built, hbuilds, hkept, preserves_announced⟩

/-- Without scripts none declares a loss. -/
theorem not_lossDeclared_of_groups {d : Derivation} {w : Workspace} (hgroups : d.plan.groups = [])
    (h : d.run = .ok w) : w.lossDeclared = false :=
  ((Derivation.run_ends (P := fun _ => True) (fun _ _ _ => trivial) hgroups).of_eq_ok
    h).2.lossDeclared

/-- Whatever a substitution returns has all markers. -/
theorem substitute_preserves {map : OrderedMap Ref Ref}
    (htrack : g.options.trackProvenance = true) :
    (g.substitute settings map force).Ends (fun _ => True) (fun _ => True)
      fun out => g.Preserves (out.after g) := by
  cases hdo : map.isEmpty && !force with
  | true =>
    rw [substitute, hdo]
    exact Transform.ends_pure (.refl g)
  | false =>
    refine ((substitute_audits htrack hdo).mono_lost fun _ _ => trivial).mono ?_
    rintro out ⟨w, built, hbuilds, hkept, hafter⟩
    exact (hkept (not_lossDeclared_of_groups rfl hbuilds.run)).trans hafter

/-- **The removal of indirections is audited**, and fails only if there is another kind under the
name of provenance. -/
theorem removeIndirections_audits {alphabetize announce : Bool}
    (htrack : g.options.trackProvenance = true) :
    (g.removeIndirections alphabetize announce).Ends (fun _ => True)
      (fun _ => ¬g.store.Among (Sole .provenance)) fun out => g.Preserves (out.after g) := by
  have hkept : (g.removeIndirections alphabetize announce).Ends (fun _ => True) (fun _ => True)
      fun out => g.Preserves (out.after g) := by
    rw [removeIndirections]
    dsimp only
    split
    · exact Transform.ends_pure (.refl g)
    · refine (Transform.ends_ofExcept Ends.self).bind fun graph _ => ?_
      split
      · exact fun _ => trivial
      · exact substitute_preserves htrack
  by_cases hkinds : g.store.Among (Sole .provenance)
  · have hends : (g.removeIndirections alphabetize announce).Ends _ _ _ :=
      removeIndirections_ends hkinds
    refine (((hends.mono_bad fun _ _ => trivial).and hkept).mono_lost fun e hlost => ?_).mono
      fun out hout => hout.2
    exact absurd unitesMarkers_sole hlost.1.2
  · exact hkept.mono_lost fun _ _ => hkinds

/-- How a replacement fails the audit: the markers that were lost are reported, or the removal of
indirections has lost markers because there is another kind under the name of provenance. -/
def FailsReplacement (g : Generation) (plan : Plan) (settings : Settings) (e : LostMarkers) : Prop :=
  g.FailsAudit plan settings e ∨ ∃ w built, (g.derivation plan settings).Builds w built ∧
    ¬built.store.Among (Sole .provenance)

/-- **A replacement is audited** before indirections are removed, and once more while they are. -/
theorem replace_audits {groups : List Group} (htrack : g.options.trackProvenance = true)
    (hdo : (groups.isEmpty && !force) = false) :
    (g.replace settings groups force).Ends (fun _ => True)
      (g.FailsReplacement (.replace groups) settings)
      fun out => ∃ w built, (g.derivation (.replace groups) settings).Builds w built ∧
        (w.lossDeclared = false → g.Preserves built) ∧ built.Preserves (out.after g) := by
  rw [replace, hdo]
  refine ((derive_audits htrack).mono_lost fun _ hlost => .inl hlost).bind ?_
  rintro _ ⟨w, built, hbuilds, rfl, hkept⟩
  cases hf : w.draft.forwarded with
  | false => exact Transform.ends_pure ⟨w, built, hbuilds, hkept, preserves_announced⟩
  | true =>
    have htrack' : ({ built with announced := g.announced } : Generation).options.trackProvenance =
        true := by
      rw [← htrack]
      exact congrArg Options.trackProvenance hbuilds.options
    have hremoval : (({ built with announced := g.announced } : Generation).removeIndirections
        settings.alphabetize settings.announce).Ends _ _ _ := removeIndirections_audits htrack'
    refine (hremoval.mono_lost fun _ hkinds => .inr ⟨w, built, hbuilds, hkinds⟩).bind ?_
    intro out hout
    refine Transform.ends_pure ⟨w, built, hbuilds, hkept, ?_⟩
    exact preserves_announced.trans hout

/-! ### Whole transformations -/

/-- Derive a generation by a plan, with all that goes with it. -/
def carryOut (g : Generation) (settings : Settings) (force : Bool) : Plan → Transform Outcome
  | .replace groups => g.replace settings groups force
  | .substitute map => g.substitute settings map force

/-- Whether the plan has something to do, or has to be carried out all the same. -/
def Requires (force : Bool) : Plan → Prop
  | .replace groups => (groups.isEmpty && !force) = false
  | .substitute map => (map.isEmpty && !force) = false

theorem carryOut_ends (htrack : g.options.trackProvenance = true) (hdo : Requires force plan) :
    (g.carryOut settings force plan).Ends (fun _ => True) (g.FailsReplacement plan settings)
      fun out => ∃ w built, (g.derivation plan settings).Builds w built ∧
        (w.lossDeclared = false → g.Preserves built) ∧ built.Preserves (out.after g) := by
  cases plan with
  | replace groups => exact replace_audits htrack hdo
  | substitute map => exact (substitute_audits htrack hdo).mono_lost fun _ => .inl

/-- A plan that has nothing to do leaves the generation as it is. -/
theorem carryOut_of_not_requires (hdo : ¬Requires force plan) :
    g.carryOut settings force plan = pure .unchanged := by
  cases plan with
  | replace groups =>
    rw [carryOut, replace, Bool.eq_true_of_not_eq_false hdo]
    rfl
  | substitute map =>
    rw [carryOut, substitute, Bool.eq_true_of_not_eq_false hdo]
    rfl

/-- The generation `h` was returned by a transformation of `g` in which no script declared a
loss. -/
inductive Becomes (g : Generation) : Generation → Prop
  | carryOut {settings : Settings} {force : Bool} {plan : Plan} {out : Outcome}
    (hquiet : ∀ w, (g.derivation plan settings).run = .ok w → w.lossDeclared = false)
    (h : (g.carryOut settings force plan).Returns out) : g.Becomes (out.after g)
  | collect {alphabetize announce : Bool} {out : Outcome}
    (h : (g.collect alphabetize announce).Returns out) : g.Becomes (out.after g)
  | removeIndirections {alphabetize announce : Bool} {out : Outcome}
    (h : (g.removeIndirections alphabetize announce).Returns out) : g.Becomes (out.after g)
  | settle {alphabetize announce : Bool} {new : Generation}
    (h : (g.settle alphabetize announce).Returns new) : g.Becomes new

/-- **What a transformation returns has all markers.** -/
theorem Becomes.preserves (hh : g.Becomes h) (htrack : g.options.trackProvenance = true) :
    g.Preserves h := by
  cases hh with
  | @carryOut settings force plan out hquiet h =>
    by_cases hdo : Requires force plan
    · obtain ⟨w, built, hbuilds, hkept, hafter⟩ := (carryOut_ends htrack hdo).of_returns h
      exact (hkept (hquiet w hbuilds.run)).trans hafter
    · rw [carryOut_of_not_requires hdo] at h
      obtain ⟨log, log', h⟩ := h
      obtain rfl : Outcome.unchanged = out := by
        injection h with h
        injection h with h
        injection h
      exact .refl g
  | collect h => exact (substitute_preserves htrack).of_returns h
  | removeIndirections h =>
    exact (removeIndirections_audits htrack).of_returns h
  | @settle alphabetize announce new h =>
    -- each rebuilding preserves what the first generation had
    have hstep : ∀ k, g.Preserves k → (k.rebuildOnce alphabetize announce).Ends (fun _ => True)
        (fun _ => True) fun next => g.Preserves next ∧ True := by
      intro k hk
      have htrack' : k.options.trackProvenance = true := hk.options ▸ htrack
      refine ((replace_audits htrack' rfl).mono_lost fun _ _ => trivial).bind ?_
      rintro out ⟨w, built, hbuilds, hkept, hafter⟩
      have hquiet : w.lossDeclared = false := not_lossDeclared_of_groups rfl hbuilds.run
      exact Transform.ends_pure ⟨(hk.trans (hkept hquiet)).trans hafter, trivial⟩
    exact ((settle_ends hstep (.refl g)).of_returns h).1

/-- **What the audit guarantees.** A replacement or substitution that builds a generation fails
exactly if a marker of a reachable node is on no reachable node of what was built, and then reports
the markers that are missing. What a transformation returns has all markers of its
source, also if indirections were removed in the end, and so has what any chain of transformations
returns, as long as no script declares a loss.

That the removal of indirections does not fail by itself needs that there is no other kind under
the name of provenance. -/
theorem carryOut_audits (htrack : g.options.trackProvenance = true) :
    (∀ settings force plan log log' out, Requires force plan →
      (g.carryOut settings force plan).run.run log = .ok (out, log') →
        ∃ w built, (g.derivation plan settings).run = .ok w ∧ ofDraft w.draft = .ok built ∧
          (w.lossDeclared = false →
            (∀ o, out = .ok o → ∀ marker, g.Shows marker → (o.after g).Shows marker) ∧
            (g.store.Among (Sole .provenance) →
              (∀ group ∈ plan.groups, ∀ slot, (group.script slot).Writes (Sole .provenance)) →
                ((∃ e, out = .error e) ↔ ∃ marker, g.Shows marker ∧ ¬built.Shows marker) ∧
                ∀ e, out = .error e → g.LossReported built settings.title e))) ∧
      ∀ h, Relation.ReflTransGen Becomes g h → ∀ marker, g.Shows marker → h.Shows marker := by
  constructor
  · intro settings force plan log log' out hdo hrun
    have hends : (g.carryOut settings force plan).Ends _ _ _ := carryOut_ends htrack hdo
    replace hends := (hends log).of_eq_ok hrun
    cases out with
    | error e =>
      rcases hends with ⟨w, built, hbuilds, -, hreported, hlost⟩ | ⟨w, built, hbuilds, hnot⟩
      · refine ⟨w, built, hbuilds.run, hbuilds.frozen, fun _ => ⟨nofun, fun _ _ => ⟨?_, ?_⟩⟩⟩
        · exact iff_of_true ⟨e, rfl⟩ hlost
        · intro e' heq
          obtain rfl := Except.error.inj heq
          exact hreported
      · exact ⟨w, built, hbuilds.run, hbuilds.frozen, fun _ => ⟨nofun, fun hkinds hscripts =>
          absurd (hbuilds.among hkinds hscripts) hnot⟩⟩
    | ok o =>
      obtain ⟨w, built, hbuilds, hkept, hafter⟩ := hends
      refine ⟨w, built, hbuilds.run, hbuilds.frozen, fun hquiet => ⟨?_, fun _ _ => ⟨?_, nofun⟩⟩⟩
      · intro o' heq
        obtain rfl := Except.ok.inj heq
        exact ((hkept hquiet).trans hafter).shows
      · refine iff_of_false nofun ?_
        rintro ⟨marker, hbefore, hnot⟩
        exact hnot ((hkept hquiet).shows marker hbefore)
  · intro h hchain
    have hpreserves : g.Preserves h := by
      induction hchain with
      | refl => exact .refl g
      | tail _ hstep ih => exact ih.trans (hstep.preserves (ih.options ▸ htrack))
    exact hpreserves.shows

/-- An array of strings, and a truth value that is not part of it; each has its own marker. -/
def marked : Generation where
  options := ⟨true⟩
  nodes := #[.array ⟨0, 1⟩, .primitive .string, .primitive .bool]
  store :=
    { serial := 0
      slots := ⟨[0, 1, 2].map fun index => some (.singleton .provenance (.singleton index))⟩
      roots := ∅ }
  roots := .ofList [("top", ⟨0, 0⟩)]
  announced := false
  children_inBounds := by decide
  roots_inBounds := by decide

theorem among_marked {P : AnyKind → Prop} (hP : P ⟨.markers, .provenance⟩) :
    marked.store.Among P := by
  refine AttributeStore.among_of_slots fun attributes hslot a ha => ?_
  have hslots : marked.store.slots.toList = [0, 1, 2].map fun index =>
    some (.singleton .provenance (.singleton index)) := rfl
  rw [hslots, List.mem_map] at hslot
  obtain ⟨index, -, hindex⟩ := hslot
  obtain rfl := Option.some.inj hindex
  obtain rfl := List.mem_singleton.1 ha
  exact hP

/-- The truth value is put in place of the array. -/
def covering : OrderedMap Ref Ref := .ofList [(⟨0, 0⟩, ⟨0, 2⟩)]

/-- The settings of that substitution. -/
def cover : Settings := ⟨"cover", .preserving, false, false⟩

theorem faultless_covering :
    (marked.derivation (.substitute covering) cover).Faultless OwnKind := by
  refine ⟨rfl, fun r hr => ?_, oneType_ownKind⟩
  change marked.Owns ((covering.find? r).getD r)
  cases hfind : covering.find? r with
  | none => exact hr
  | some s =>
    have hentry : (r, s) ∈ [((⟨0, 0⟩ : Ref), (⟨0, 2⟩ : Ref))] :=
      OrderedMap.find?_eq_some_iff.1 hfind
    obtain ⟨-, rfl⟩ := Prod.mk.inj (List.mem_singleton.1 hentry)
    change marked.Owns ⟨0, 2⟩
    exact ⟨rfl, by decide⟩

/-- The audit of a derivation meets a fault only if attributes of one name have different types. -/
theorem lostMarkers?_ends_of_types {P : AnyKind → Prop} {plan : Plan} {w : Workspace}
    {new : Generation} (htrack : g.options.trackProvenance = true) (hg : g.store.Among P)
    (h : (g.derivation plan settings).Derives w new) :
    Ends (g.lostMarkers? new settings.title)
      (fun _ => ¬(g.derivation plan settings).Faultless P) fun _ => True := by
  have hnew : new.store.Among P := h.store ▸ h.finished.grown.among_old h.plan hg
  have hmarkers : ∀ {k : Generation}, k.store.Among P →
      Ends k.markers (fun _ => ¬(g.derivation plan settings).Faultless P) fun _ => True :=
    fun hk => ((markers_ends hk).mono fun _ _ => trivial).mono_bad fun _ hnot h => hnot h.types
  exact (lostMarkers?_audits htrack (hmarkers hg) (hmarkers hnew)).mono fun _ _ => trivial

/-- A substitution that is audited returns or reports, if its plan fits and attributes of one name
have one type. -/
theorem exists_run_substitute {P : AnyKind → Prop} {map : OrderedMap Ref Ref} (log : Log)
    (hg : g.store.Among P) (htrack : g.options.trackProvenance = true)
    (hdo : Requires force (.substitute map))
    (hfaultless : (g.derivation (.substitute map) settings).Faultless P) :
    ∃ out log', (g.carryOut settings force (.substitute map)).run.run log = .ok (out, log') := by
  have hends : (g.carryOut settings force (.substitute map)).Ends _ (fun _ => True) _ :=
    substitute_ends hg hdo fun w new hnew =>
      (lostMarkers?_ends_of_types htrack hg hnew).mono fun _ _ _ _ => trivial
  obtain ⟨⟨out, log'⟩, hrun, -⟩ := (hends log).exists_ok fun _ hnot => hnot hfaultless
  exact ⟨out, log', hrun⟩

/-- What is frozen from the workspace is a single node that does not have the marker. -/
def freezesWithout (marker : Nat) (w : Workspace) : Bool :=
  match ofDraft w.draft with
  | .ok built =>
    built.size == 1 && match built.store.find? .provenance (built.refAt 0) with
      | .ok (some found) => !found.toList.contains marker
      | _ => false
  | .error _ => false

/-- The strings are left behind, and their marker with them. -/
theorem carryOut_covering :
    ∃ e log, (marked.carryOut cover false (.substitute covering)).run.run ⟨"", []⟩ =
        .ok (.error e, log) ∧ e.title = "cover" ∧ 1 ∈ e.missing := by
  have hdo : Requires false (.substitute covering) := rfl
  obtain ⟨out, log, hrun⟩ :=
    exists_run_substitute ⟨"", []⟩ (among_marked (.inr (.inr rfl))) rfl hdo faultless_covering
  obtain ⟨haudited, -⟩ := carryOut_audits (g := marked) rfl
  obtain ⟨w, built, hw, hbuilt, hreport⟩ := haudited _ _ _ _ _ _ hdo hrun
  obtain ⟨-, hkinds⟩ := hreport (not_lossDeclared_of_groups rfl hw)
  obtain ⟨hiff, hreported⟩ := hkinds (among_marked fun _ => rfl) nofun
  have hbefore : marked.Shows 1 := by
    have hroot : marked.Reaches ⟨0, 0⟩ := .root (List.mem_singleton.2 rfl)
    exact ⟨⟨0, 1⟩, .singleton 1, hroot.child rfl (List.mem_singleton.2 rfl), rfl, by decide⟩
  have hafter : ¬built.Shows 1 := by
    -- what is built is the truth value alone
    have htest : ((marked.derivation (.substitute covering) cover).run.toOption.any
        (freezesWithout 1)) = true := by decide +kernel
    rw [hw] at htest
    change freezesWithout 1 w = true at htest
    rw [freezesWithout, hbuilt, Bool.and_eq_true] at htest
    obtain ⟨hsize, hfound⟩ := htest
    rintro ⟨r, found, hr, hfind, hmem⟩
    have hindex : r.index = 0 := by
      have hlt := hr.owns.2
      rw [eq_of_beq hsize] at hlt
      omega
    rw [hr.owns.eq_refAt, hindex] at hfind
    rw [hfind] at hfound
    simp [SortedSet.mem_def.1 hmem] at hfound
  obtain ⟨e, rfl⟩ := hiff.2 ⟨1, hbefore, hafter⟩
  have hreported := hreported e rfl
  exact ⟨e, log, hrun, hreported.title, (hreported.mem 1).2 ⟨hbefore, hafter⟩⟩

/-! ### Transformations that lose nothing -/

/-- **Transformations that keep all nodes never lose a marker**: collecting, settling and removing
indirections. Neither does a replacement all of whose scripts' losses are declared, also if
indirections are removed in the end. -/
theorem never_loses (htrack : g.options.trackProvenance = true)
    (hkinds : g.store.Among (Sole .provenance)) :
    (∀ alphabetize announce, (g.collect alphabetize announce).NeverLoses ∧
      (g.settle alphabetize announce).NeverLoses ∧
      (g.removeIndirections alphabetize announce).NeverLoses) ∧
    ∀ settings groups force,
      (∀ group ∈ groups, ∀ slot, (group.script slot).Writes (Sole .provenance)) →
      (∀ w, (g.derivation (.replace groups) settings).run = .ok w → w.lossDeclared = true) →
        (g.replace settings groups force).NeverLoses := by
  have hunites : ∀ {k : Generation}, ¬k.MayLoseMarkers (Sole .provenance) :=
    fun h => h.2 unitesMarkers_sole
  have hremoval : ∀ {k : Generation} {alphabetize announce : Bool},
      k.store.Among (Sole .provenance) →
        (k.removeIndirections alphabetize announce).Ends (fun _ => True) (fun _ => False)
          fun _ => True := fun hk =>
    (((removeIndirections_ends hk).mono_bad fun _ _ => trivial).mono_lost fun _ => hunites).mono
      fun _ _ => trivial
  refine ⟨fun alphabetize announce => ⟨?_, ?_, hremoval hkinds |>.neverLoses fun _ => id⟩,
    fun settings groups force hscripts hdeclared => ?_⟩
  · exact (collect_ends hkinds).neverLoses fun _ => hunites
  · have hstep : ∀ k : Generation, k.store.Among (Sole .provenance) →
        (k.rebuildOnce alphabetize announce).Ends (fun _ => True) (fun _ => False)
          fun next => next.store.Among (Sole .provenance) ∧ True := by
      intro k hk
      refine (((rebuildOnce_ends hk).mono_bad fun _ _ => trivial).mono_lost fun _ => hunites).mono ?_
      exact fun next hnext => ⟨hnext.among hk, trivial⟩
    exact (settle_ends hstep hkinds).neverLoses fun _ => id
  · by_cases hdo : Requires force (.replace groups)
    · refine (replace_audits htrack hdo).neverLoses ?_
      rintro e (⟨w, built, hbuilds, hquiet, -⟩ | ⟨w, built, hbuilds, hnot⟩)
      · simp [hdeclared w hbuilds.run] at hquiet
      · exact hnot (hbuilds.among hkinds hscripts)
    · have hpure : g.replace settings groups force = pure .unchanged :=
        carryOut_of_not_requires hdo
      rw [hpure]
      exact fun _ _ _ => nofun

/-- The array is replaced by a truth value, and what is lost with it is declared. -/
def dropping : Group where
  members := [⟨0, 0⟩]
  script _ := do
    Script.declareLoss
    Script.intern (.primitive .bool) ∅ none

/-- Neither collecting the marked graph nor dropping its array on purpose is reported. -/
theorem never_loses_marked :
    (marked.collect true false).NeverLoses ∧
      (marked.replace ⟨"drop", .preserving, false, false⟩ [dropping] false).NeverLoses := by
  obtain ⟨hkeep, hdeclare⟩ := never_loses (g := marked) rfl (among_marked fun _ => rfl)
  refine ⟨(hkeep true false).1, hdeclare _ _ _ (fun group hgroup slot => ?_) fun w hw => ?_⟩
  · obtain rfl := List.mem_singleton.1 hgroup
    exact ⟨nofun, fun _ => trivial⟩
  · have htest : (match (marked.derivation (.replace [dropping])
        ⟨"drop", .preserving, false, false⟩).run with
      | .ok w => w.lossDeclared
      | .error _ => true) = true := by decide +kernel
    rw [hw] at htest
    exact htest

end Generation

end SchemaGraph
