import SchemaGraph.Proofs.Rebuild.Gathering

/-!
# Deriving as a transformation

A derivation does more than rebuild: it may print the generation before and after, and it checks
that no provenance marker was lost. Neither can fail as long as the names of attributes have one
type (`SchemaGraph.Generation.listing_ends`, `SchemaGraph.Generation.markers_ends`), so what a
derivation does is what its rebuilding does (`SchemaGraph.Generation.derive_ends`).
-/

namespace SchemaGraph

namespace Generation

variable {g : Generation} {P : AnyKind → Prop} {r : Ref}

/-! ### Listings -/

/-- A node can be asked for its name. -/
theorem nameOf_ends (hg : g.store.Among P) (hr : r.serial = g.serial) :
    Ends (g.nameOf r) (fun _ => ¬OneType P) fun _ => True := by
  rw [nameOf, AttributeStore.find?_eq_atIndex hr]
  exact (Attributes.find?_ends (hg r.index) OneType.names).bind fun _ _ => trivial

/-- A generation can be listed. -/
theorem listing_ends (hg : g.store.Among P) :
    Ends g.listing (fun _ => ¬OneType P) fun _ => True := by
  refine (Ends.mapM fun e _ => ?_).bind fun _ _ => trivial
  exact (nameOf_ends hg rfl).bind fun _ _ => trivial

/-- Printing a listing first, or not, makes no difference to how a transformation ends, if the
generation can be listed. -/
theorem ends_printing {α : Type} {bad : Fault → Prop} {lost : LostMarkers → Prop} {good : α → Prop}
    {title moment : String} {k : Unit → Transform α} (printing : Bool)
    (hlisting : Ends g.listing bad fun _ => True) (hk : (k ()).Ends bad lost good) :
    Transform.Ends (if printing then g.printListing title moment >>= k else k ()) bad lost good := by
  have hprint : ∀ text, (Transform.print text).Ends bad lost fun _ => True := fun _ =>
    Transform.ends_print trivial
  cases printing with
  | false => exact hk
  | true =>
    have hshown : (g.printListing title moment).Ends bad lost fun _ => True :=
      (hprint _).bind fun _ _ => (Transform.ends_ofExcept hlisting).bind fun _ _ => hprint _
    exact hshown.bind fun _ _ => hk

/-! ### Markers -/

/-- The markers that were found so far, with those of one more node. -/
def withMarkers (g : Generation) (found : SortedSet Nat) (r : Ref) :
    Except Fault (SortedSet Nat) := do
  match ← g.store.find? .provenance r with
  | some here => return found.union here
  | none => return found

theorem markers_eq : g.markers = g.reachable.foldlM g.withMarkers ∅ := rfl

/-- The marker is among the provenance of a reachable node. -/
def Shows (g : Generation) (marker : Nat) : Prop :=
  ∃ r found, g.Reaches r ∧ g.store.find? .provenance r = .ok (some found) ∧ marker ∈ found

/-- The audited markers of a generation are those that a reachable node has. -/
theorem markers_shows : Ends g.markers (fun _ => True) fun found =>
    ∀ marker, marker ∈ found ↔ g.Shows marker := by
  have hfold : ∀ (rs : List Ref) (found : SortedSet Nat),
      Ends (rs.foldlM g.withMarkers found) (fun _ => True) fun all =>
        ∀ marker, marker ∈ all ↔ marker ∈ found ∨ ∃ r ∈ rs, ∃ here,
          g.store.find? .provenance r = .ok (some here) ∧ marker ∈ here := by
    intro rs
    induction rs with
    | nil => exact fun found marker => by simp
    | cons r rest ih =>
      intro found
      rw [List.foldlM_cons, withMarkers]
      cases hfind : g.store.find? .provenance r with
      | error f => trivial
      | ok here =>
        cases here with
        | none =>
          refine (ih found).mono fun all hall marker => ?_
          rw [hall]
          simp [hfind]
        | some here =>
          refine (ih (found.union here)).mono fun all hall marker => ?_
          rw [hall, SortedSet.mem_union]
          simp [hfind, or_assoc]
  rw [markers_eq]
  refine (hfold g.reachable ∅).mono fun all hall marker => ?_
  rw [hall]
  constructor
  · rintro (hmem | ⟨r, hr, here, hfind, hmarker⟩)
    · simp [SortedSet.mem_def, EmptyCollection.emptyCollection, SortedSet.empty] at hmem
    · exact ⟨r, here, mem_reachable_iff.1 hr, hfind, hmarker⟩
  · rintro ⟨r, here, hr, hfind, hmarker⟩
    exact .inr ⟨r, mem_reachable_iff.2 hr, here, hfind, hmarker⟩

/-- Where the kind under the name of provenance is the library's own, these are the markers that
nodes carry. -/
theorem shows_iff_hasMarker {marker : Nat} (hg : g.store.Among (Sole .provenance)) :
    g.Shows marker ↔ g.HasMarker marker := by
  have hcarries : ∀ {r}, g.Reaches r → ((g.store.atIndex r.index).Carries marker ↔
      ∃ found, g.store.find? .provenance r = .ok (some found) ∧ marker ∈ found) := by
    intro r hr
    have hlists : (g.store.atIndex r.index).Lists .provenance (fun s => {a | a ∈ s}) marker ↔ _ :=
      AttributeStore.lists_iff_find? hg hr.owns.1
    exact hlists
  constructor
  · rintro ⟨r, found, hr, hfind, hmarker⟩
    exact ⟨r, hr, (hcarries hr).2 ⟨found, hfind, hmarker⟩⟩
  · rintro ⟨r, hr, hmarker⟩
    obtain ⟨found, hfind, hmem⟩ := (hcarries hr).1 hmarker
    exact ⟨r, found, hr, hfind, hmem⟩

/-- **The markers of a generation** are those that some reachable node carries. -/
theorem markers_ends (hg : g.store.Among P) :
    Ends g.markers (fun _ => ¬OneType P) fun found =>
      UnitesMarkers P → ∀ marker, marker ∈ found ↔ g.HasMarker marker := by
  have hread : ∀ r ∈ g.reachable,
      Ends (g.store.find? .provenance r) (fun _ => ¬OneType P) fun _ => True := by
    intro r hr
    rw [AttributeStore.find?_eq_atIndex (mem_reachable_iff.1 hr).owns.1]
    exact Attributes.find?_ends (hg r.index) OneType.provenance
  have hends : Ends g.markers (fun _ => ¬OneType P) fun _ => True := by
    rw [markers_eq]
    refine Ends.foldlM (fun found _ r hr => (hread r hr).bind fun here _ => ?_) trivial
    cases here with
    | none => trivial
    | some here => trivial
  refine (hends.and markers_shows).mono fun found hfound hP marker => ?_
  have hsole : g.store.Among (Sole .provenance) := fun index a ha => hP _ (hg index a ha)
  rw [hfound.2, shows_iff_hasMarker hsole]

/-- Markers of the generation may be lost although every node is rebuilt: they are tracked, and
there is a kind under their name that does not unite them. -/
def MayLoseMarkers (g : Generation) (P : AnyKind → Prop) : Prop :=
  g.options.trackProvenance = true ∧ ¬UnitesMarkers P

/-- A generation in which every marker of an earlier one is found again has lost none. -/
theorem lostMarkers?_ends {before after : Generation} {title : String}
    (hbefore : before.store.Among P) (hafter : after.store.Among P)
    (hkept : UnitesMarkers P → ∀ marker, before.HasMarker marker → after.HasMarker marker) :
    Ends (before.lostMarkers? after title) (fun _ => ¬OneType P) fun lost =>
      ∀ e ∈ lost, before.MayLoseMarkers P := by
  rw [lostMarkers?]
  cases htrack : before.options.trackProvenance with
  | false => exact fun e he => by simp at he
  | true =>
    refine (markers_ends hafter).bind fun kept hkept' => ?_
    refine (markers_ends hbefore).bind fun found hfound => ?_
    intro e he
    refine ⟨htrack, fun hP => ?_⟩
    -- every marker that was found before is found afterwards
    have hempty : (found.diff kept).toList = [] := by
      refine List.filter_eq_nil_iff.2 fun marker hmarker => ?_
      have hin : marker ∈ kept :=
        (hkept' hP marker).2 (hkept hP marker ((hfound hP marker).1 hmarker))
      simpa using hin
    simp [hempty] at he

/-! ### Derivations -/

/-- The derivation by a plan. -/
def derivation (g : Generation) (plan : Plan) (settings : Settings) : Derivation where
  old := g
  plan
  mapping := settings.mapping
  alphabetize := settings.alphabetize

/-- A derivation loses no marker if what can be reached is rebuilt, or substituted by what is. -/
theorem lostMarkers?_ends_of_derives {plan : Plan} {settings : Settings} {w : Workspace}
    {new : Generation} (hg : g.store.Among P) (h : (g.derivation plan settings).Derives w new)
    (hvisits : ∀ s, g.Reaches s → g.Visits plan.target (plan.target s)) :
    Ends (g.lostMarkers? new settings.title) (fun _ => ¬OneType P) fun found =>
      ∀ e ∈ found, g.MayLoseMarkers P :=
  lostMarkers?_ends hg (h.store ▸ h.finished.grown.among_old h.plan hg) fun hP _ =>
    h.hasMarker hP hg hvisits

/-- What the audit of a derivation finds. Nothing is audited if a script declared a loss. -/
def audit? (g : Generation) (w : Workspace) (new : Generation) (title : String) :
    Except Fault (Option LostMarkers) :=
  if w.lossDeclared then .ok none else g.lostMarkers? new title

/-- **The parts of a derivation**: the generation is listed, rebuilt by the plan, accepted, frozen,
listed again and audited. -/
theorem derive_ends_of {plan : Plan} {settings : Settings} {accept : Workspace → Except Fault Unit}
    {bad : Fault → Prop} {lost : LostMarkers → Prop} {good : Generation × Bool → Prop}
    (hlisting : Ends g.listing bad fun _ => True)
    (hparts : Ends (g.derivation plan settings).run bad fun w => Ends (accept w) bad (fun _ => True) ∧
      Ends (ofDraft w.draft) bad fun built =>
        Ends ({ built with announced := g.announced } : Generation).listing bad (fun _ => True) ∧
        Ends (g.audit? w { built with announced := g.announced } settings.title) bad fun found =>
          match found with
          | some e => lost e
          | none => good ({ built with announced := g.announced }, w.draft.forwarded)) :
    (g.derive plan settings accept).Ends bad lost good := by
  rw [derive]
  refine ends_printing (settings.announce || g.announced) hlisting ?_
  refine (Transform.ends_ofExcept hparts).bind fun w hw => ?_
  have hrecord : (Transform.record w.journal).Ends bad lost fun _ => True :=
    Transform.ends_record trivial
  refine (Transform.ends_ofExcept hw.1).bind fun _ _ => hrecord.bind fun _ _ => ?_
  refine (Transform.ends_ofExcept hw.2).bind fun built hbuilt => ?_
  refine ends_printing (settings.announce || g.announced)
    (g := { built with announced := g.announced }) hbuilt.1 ?_
  have haudit := hbuilt.2
  rw [audit?] at haudit
  by_cases hdeclared : w.lossDeclared
  · rw [if_pos hdeclared] at haudit ⊢
    exact Transform.ends_pure haudit
  · rw [if_neg hdeclared] at haudit ⊢
    refine (Transform.ends_ofExcept haudit).bind fun found hfound => ?_
    cases found with
    | none => exact Transform.ends_pure hfound
    | some e => exact fun _ => hfound

/-- **What a derivation without groups does**: it meets a fault only if the plan does not fit or
two attributes of one name have different types, and otherwise gives the rebuilt generation. -/
theorem derive_ends {plan : Plan} {settings : Settings} {accept : Workspace → Except Fault Unit}
    {lost : LostMarkers → Prop} (hg : g.store.Among P) (hgroups : plan.groups = [])
    (haccept : ∀ w, (g.derivation plan settings).Finished w → accept w = .ok ())
    (hlost : ∀ w new, (g.derivation plan settings).Derives w new →
      Ends (g.lostMarkers? new settings.title) (fun _ => ¬(g.derivation plan settings).Faultless P)
        fun found => ∀ e ∈ found, lost e) :
    (g.derive plan settings accept).Ends (fun _ => ¬(g.derivation plan settings).Faultless P) lost
      fun out => ∃ w, (g.derivation plan settings).Derives w out.1 ∧
        out.2 = w.draft.forwarded := by
  have htypes : ∀ f : Fault, ¬OneType P → ¬(g.derivation plan settings).Faultless P :=
    fun _ hnot h => hnot h.types
  have hrun := Derivation.run_ends (d := g.derivation plan settings) hg hgroups
  refine derive_ends_of ((listing_ends hg).mono_bad htypes) (hrun.mono ?_)
  rintro w ⟨hplan, hw⟩
  refine ⟨by rw [haccept w hw]; trivial, ?_⟩
  refine (hw.ofDraft_ends.mono_bad fun _ => False.elim).mono ?_
  rintro built ⟨hoptions, hslots, hstore, hroots⟩
  have hnew : (g.derivation plan settings).Derives w { built with announced := g.announced } :=
    ⟨hw, hplan, hoptions.trans hw.options, hslots, hstore, hroots⟩
  have hamong : built.store.Among P := hstore ▸ hw.grown.among_old hplan hg
  refine ⟨(listing_ends (g := { built with announced := g.announced }) hamong).mono_bad htypes, ?_⟩
  rw [audit?]
  split
  · exact ⟨w, hnew, rfl⟩
  · refine (hlost w _ hnew).mono fun found hfound => ?_
    cases found with
    | none => exact ⟨w, hnew, rfl⟩
    | some e => exact hfound e rfl

end Generation

end SchemaGraph
