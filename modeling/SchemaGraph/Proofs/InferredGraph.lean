import SchemaGraph.CommandLine.FileSystem
import SchemaGraph.Proofs.AttributeUnion
import SchemaGraph.Proofs.DeclarationOrder
import SchemaGraph.Proofs.Renumbering
import SchemaGraph.Proofs.Snapshots

/-!
# The inferred graph

An inference always ends with a graph, and it can be shown (`SchemaGraph.Job.infer_settles`). In
that graph (`SchemaGraph.Generation.Concludes`) each node can be reached, comes after its children
and is different from all others; what has to be sorted is sorted, and what has to be plain is
plain; and there are the markers of all nodes that were built from the samples.

The graph of samples is in normal form, but sorting properties and making strings plain makes
nodes equal. Two things hold of every generation on the way (`SchemaGraph.Generation.Descends`) and
make the stages meet: children come before their parents, so a rebuilding meets no node from below
and **merges** nodes without removing indirections; and merging moves markers, without adding or
dropping one. The settling stops at a graph without twins, and the collection makes none.
Attributes of the library's own kinds are no part of a node's identity, so without twins no two
nodes are equal.
-/

namespace SchemaGraph

namespace Generation

variable {built g new : Generation} {plan : Plan} {settings : Settings} {w : Workspace} {r s : Ref}
  {φ : Ref → Ref} {m : StringMapping} {a alphabetize plain : Bool} {marker : Nat}

/-! ### What is merged -/

/-- **Merging nodes moves markers**, and neither adds nor drops one. -/
theorem Merges.hasMarker_iff (h : g.Merges new id φ m a) (hg : g.store.Among OwnKind) :
    new.HasMarker marker ↔ g.HasMarker marker := by
  have hsole : g.store.Among (Sole .provenance) := fun index b hb =>
    unitesMarkers_ownKind _ (hg index b hb)
  have hlists : ∀ {s}, new.Reaches s → ((new.store.atIndex s.index).Carries marker ↔
      ∃ r, g.GoesTo id φ r s ∧ (g.store.atIndex r.index).Carries marker) := fun hs =>
    h.lists AttributeKind.unites_own.2.2 hsole hs
  constructor
  · rintro ⟨s, hs, hmarker⟩
    obtain ⟨r, hr, hr'⟩ := (hlists hs).1 hmarker
    exact ⟨r, hr.1, hr'⟩
  · rintro ⟨r, hr, hmarker⟩
    have hs : new.Reaches (φ r) := h.reaches_iff.2 ⟨r, hr, rfl⟩
    exact ⟨φ r, hs, (hlists hs).2 ⟨r, ⟨hr, rfl⟩, hmarker⟩⟩

/-- No reachable node is of a formatted kind. -/
def Unformatted (g : Generation) : Prop :=
  ∀ {r kind}, g.Reaches r → g.node? r.index = some (.primitive kind) → kind.isFormatted = false

/-- A scalar of an image is the image of a scalar. -/
theorem IsImage.exists_primitive {kind : PrimitiveKind} (h : g.IsImage new φ m a)
    (hs : new.Reaches s) (hn : new.node? s.index = some (.primitive kind)) :
    ∃ r old, g.Reaches r ∧ g.node? r.index = some (.primitive old) ∧ m.apply old = kind := by
  obtain ⟨r, hr, rfl⟩ := h.onto hs
  obtain ⟨old, hold⟩ := hr.owns.exists_node
  have hnode := Option.some.inj ((h.node hr hold).symm.trans hn)
  cases old with
  | primitive old => exact ⟨r, old, hr, hold, (Node.primitive.inj hnode)⟩
  | object properties =>
    simp only [Node.mapChildren, Node.canonical] at hnode
    split at hnode <;> cases hnode
  | _ => cases hnode

theorem IsImage.unformatted (h : g.IsImage new φ m a)
    (hm : m = .plain ∨ m = .preserving ∧ g.Unformatted) : new.Unformatted := by
  intro s kind hs hn
  obtain ⟨r, old, hr, hold, rfl⟩ := h.exists_primitive hs hn
  rcases hm with rfl | ⟨rfl, hg⟩
  · cases old <;> rfl
  · rw [StringMapping.apply_preserving]
    exact hg hr hold

/-! ### Generations of an inference -/

/-- What holds of every generation of an inference that began with `built`: children come before
their parents, no node is an intersection, and the markers are those of `built`. If `plain` is set,
strings have been made plain. -/
structure Descends (built : Generation) (plain : Bool) (g : Generation) : Prop where
  children_lt : ∀ {index c}, c ∈ g.childrenAt index → c.index < index
  noIntersections : g.NoIntersections
  among : g.store.Among OwnKind
  hasMarker_iff : ∀ {marker}, g.HasMarker marker ↔ built.HasMarker marker
  unformatted : plain = true → g.Unformatted

/-- A run over such a generation merges nodes. -/
theorem RebuiltOnce.merges (h : g.RebuiltOnce plan settings w new) :
    g.Merges new id ((g.derivation plan settings).imageOf w) settings.mapping
      settings.alphabetize := by
  have hmerges := merges_of_direct h.derives h.direct
  rwa [h.stays.target] at hmerges

/-- **One run to the next generation.** -/
theorem RebuiltOnce.descends {plain' : Bool} (h : g.RebuiltOnce plan settings w new)
    (hg : built.Descends plain g) (hplain : plain' = true →
      settings.mapping = .plain ∨ settings.mapping = .preserving ∧ plain = true) :
    built.Descends plain' new := by
  have himage := h.merges.toCondenses.isImage hg.noIntersections
  exact
    { children_lt := h.children_lt
      noIntersections := himage.noIntersections hg.noIntersections
      among := h.merges.among hg.among
      hasMarker_iff := (h.merges.hasMarker_iff hg.among).trans hg.hasMarker_iff
      unformatted := fun htrue => himage.unformatted
        ((hplain htrue).imp_right (And.imp_right hg.unformatted)) }

section Descends

variable (hg : built.Descends plain g)

include hg

/-- A graph that announces itself is the same graph. -/
theorem Descends.of_announce : built.Descends plain g.announce where
  children_lt := hg.children_lt
  noIntersections r n hr := hg.noIntersections r n (reaches_announced_iff.1 hr)
  among := hg.among
  hasMarker_iff := Iff.trans (exists_congr fun _ => and_congr_left' reaches_announced_iff)
    hg.hasMarker_iff
  unformatted htrue _ _ hr := hg.unformatted htrue (reaches_announced_iff.1 hr)

theorem Descends.replace_ends :
    (g.replace settings [] true).Ends (fun _ => False) (fun _ => False)
      fun out => ∃ w new, out = .derived new ∧ g.RebuiltOnce (.replace []) settings w new :=
  (replace_rebuiltOnce oneType_ownKind hg.among hg.noIntersections hg.children_lt).mono_lost
    fun _ => not_mayLoseMarkers_ownKind

/-- **Strings are made plain.** -/
theorem Descends.plainStrings_ends :
    (g.plainStrings alphabetize).Ends (fun _ => False) (fun _ => False) fun new =>
      built.Descends true new := by
  refine hg.replace_ends.bind ?_
  rintro out ⟨w, new, rfl, hnew⟩
  exact Transform.ends_pure (hnew.descends hg fun _ => .inl rfl)

/-- **Nodes are rebuilt until none are the same.** -/
theorem Descends.settle_ends {announce : Bool} :
    (g.settle alphabetize announce).Ends (fun _ => False) (fun _ => False) fun new =>
      built.Descends plain new ∧ ¬new.HasTwins alphabetize := by
  have hstep : ∀ last : Generation, built.Descends plain last →
      (last.rebuildOnce alphabetize announce).Ends (fun _ => False) (fun _ => False) fun new =>
        built.Descends plain new ∧ last.Rebuilds (fixedPoint alphabetize announce) new := by
    intro last hlast
    refine rebuildOnce_ends_of_replace (hlast.replace_ends.mono ?_)
    rintro out ⟨w, new, rfl, hnew⟩
    exact ⟨new, rfl, hnew.descends hlast fun htrue => .inr ⟨rfl, htrue⟩,
      .direct hnew.derives hnew.direct⟩
  refine (Generation.settle_ends hstep hg).mono ?_
  rintro new ⟨hnew, last, -, hlast, hshrinks⟩
  -- the last rebuilding made no node one with another, so there were no twins
  exact ⟨hnew, (hlast.not_hasTwins fun htwins =>
    hshrinks (hlast.length_le_and_lt_iff.2.2 htwins)).1⟩

/-- **What cannot be reached is left behind.** -/
theorem Descends.collect_ends {announce : Bool} (hnone : ¬g.HasTwins alphabetize) :
    (g.collect alphabetize announce).Ends (fun _ => False) (fun _ => False) fun out =>
      ∃ new, out = .derived new ∧ built.Descends plain new ∧ new.IsCollected alphabetize ∧
        ¬new.HasTwins alphabetize := by
  refine ((collect_rebuiltOnce oneType_ownKind hg.among hg.children_lt).mono_lost
    fun _ => not_mayLoseMarkers_ownKind).mono ?_
  rintro out ⟨w, new, rfl, hnew⟩
  exact ⟨new, rfl, hnew.descends hg fun htrue => .inr ⟨rfl, htrue⟩,
    isCollected_of_derives hnew.derives,
    not_hasTwins_of_direct hnew.derives stays_empty rfl hnew.direct hnone⟩

end Descends

/-! ### What is inferred -/

/-- Nodes are declared one by one: each line of the order of declarations shows the name of one
node, and none of them is for a cycle. -/
def DeclaresSingly (g : Generation) : Prop :=
  ∃ (declared : List Ref) (names : List String) (listing : String),
    g.declarationOrder = .ok (declared.map ([·])) ∧
    declared.mapM g.displayName = .ok names ∧ g.listing = .ok listing ∧
    g.report = .ok (listing ++ "\ndeclaration order:\n" ++
      String.join (names.map fun name => "  " ++ name ++ "\n"))

/-- What is inferred from the graph `built` of samples, and that it can be shown. -/
structure Concludes (built : Generation) (settings : Inference.Settings) (g : Generation) :
    Prop where
  /-- Each node can be reached, comes after its children and is different from all others, and no
  node is an intersection. -/
  tidy : g.Tidy
  sorted : settings.alphabetize = true → ∀ {index properties},
    g.node? index = some (.object properties) →
      (properties.map Property.name).Pairwise (· ≤ ·)
  unformatted : settings.plainStrings = true → ∀ {index kind},
    g.node? index = some (.primitive kind) → kind.isFormatted = false
  /-- Markers are tracked if they should be, and are those of the nodes that were built: their
  indices. -/
  markers : ∃ found, built.markers = .ok found ∧ g.markers = .ok found ∧
    ∀ marker, marker ∈ found ↔
      settings.options.trackProvenance = true ∧ marker < built.size
  declared : g.DeclaresSingly
  snapshot : ∃ snapshot, g.snapshot = .ok snapshot

/-- A group of one node is shown by the name of the node. -/
theorem mapM_groupLine_singletons (declared : List Ref) :
    Ends (declared.mapM g.displayName) (fun _ => True) fun names =>
      (declared.map ([·])).mapM g.groupLine = .ok (names.map fun name => "  " ++ name ++ "\n") := by
  induction declared with
  | nil => rfl
  | cons r rest ih =>
    rw [List.mapM_cons]
    refine Ends.self.bind fun name hname => ih.bind fun names hnames => ?_
    have hline : g.groupLine [r] = .ok ("  " ++ name ++ "\n") := by
      rw [groupLine, List.mapM_cons, hname]
      rfl
    rw [List.map_cons, List.mapM_cons, hline, hnames]
    rfl

/-- So it is if children come before their parents. -/
theorem declaresSingly (hg : g.store.Among OwnKind)
    (hlt : ∀ {index c}, c ∈ g.childrenAt index → c.index < index) : g.DeclaresSingly := by
  obtain ⟨declared, horder⟩ := declarationOrder_singletons hlt
  obtain ⟨listing, hlisting, -⟩ := (listing_ends hg).exists_ok fun _ hnot => hnot oneType_ownKind
  have hserial : ∀ r ∈ declared, r.serial = g.serial := by
    obtain ⟨groups, hgroups, h⟩ := g.declarationOrder_ends
    obtain rfl := Except.ok.inj (horder.symm.trans hgroups)
    intro r hr
    have hmem := (h.sublist [r] (List.mem_map_of_mem hr)).subset (List.mem_singleton_self r)
    exact (mem_named_iff.1 hmem).1.owns.1
  have hends : Ends (declared.mapM g.displayName) (fun _ => ¬OneType OwnKind) fun _ => True :=
    Ends.mapM fun r hr => (nameOf_ends hg (hserial r hr)).bind fun _ _ => trivial
  obtain ⟨names, hnames, -⟩ := hends.exists_ok fun _ hnot => hnot oneType_ownKind
  refine ⟨declared, names, listing, horder, hnames, hlisting, ?_⟩
  rw [report, hlisting, horder]
  change (do return _ ++ String.join (← (declared.map ([·])).mapM g.groupLine)) = _
  rw [(mapM_groupLine_singletons declared).of_eq_ok hnames]
  rfl

theorem exists_snapshot (hg : g.store.Among OwnKind) : ∃ snapshot, g.snapshot = .ok snapshot := by
  obtain ⟨snapshot, hsnapshot, -⟩ := (snapshot_ends hg).exists_ok fun _ hnot => hnot oneType_ownKind
  exact ⟨snapshot, hsnapshot⟩

theorem exists_markers (hg : g.store.Among OwnKind) :
    ∃ found, g.markers = .ok found ∧ ∀ marker, marker ∈ found ↔ g.HasMarker marker := by
  obtain ⟨found, hfound, hmarkers⟩ := (markers_ends hg).exists_ok fun _ hnot => hnot oneType_ownKind
  exact ⟨found, hfound, hmarkers unitesMarkers_ownKind⟩

/-- The markers of a first generation. -/
theorem FirstMarked.hasMarker_iff (h : built.FirstMarked)
    (hreaches : ∀ {r}, built.Owns r → built.Reaches r) :
    built.HasMarker marker ↔ built.options.trackProvenance = true ∧ marker < built.size := by
  constructor
  · rintro ⟨r, hr, hmarker⟩
    obtain ⟨htrack, rfl⟩ := (h.markers hr.owns marker).1 hmarker
    exact ⟨htrack, hr.owns.2⟩
  · rintro ⟨htrack, hlt⟩
    have howns : built.Owns (built.refAt marker) := ⟨rfl, hlt⟩
    exact ⟨_, hreaches howns, (h.markers howns marker).2 ⟨htrack, rfl⟩⟩

/-- What has been collected and has no twins is tidy. -/
theorem Descends.tidy (hg : built.Descends plain g) (hcollected : g.IsCollected alphabetize)
    (hnone : ¬g.HasTwins alphabetize) : g.Tidy where
  reaches := hcollected.reaches
  children_lt := hg.children_lt
  noIntersections {index n} hn :=
    hg.noIntersections (g.refAt index) n (hcollected.reaches ⟨rfl, lt_size_of_node? hn⟩) hn
  distinct {i j n} hi hj := by
    have howns : ∀ {k}, g.node? k = some n → g.Owns (g.refAt k) := fun hk =>
      ⟨rfl, lt_size_of_node? hk⟩
    refine congrArg Ref.index (eq_of_twins hnone (hcollected.reaches (howns hi))
      (hcollected.reaches (howns hj)) ⟨n, n, hi, hj, rfl, ?_⟩)
    rw [Attributes.identityTexts_eq_nil (hg.among _), Attributes.identityTexts_eq_nil (hg.among _)]

theorem IsCollected.sorted (h : g.IsCollected true) {index : Nat} {properties : List Property}
    (hn : g.node? index = some (.object properties)) :
    (properties.map Property.name).Pairwise (· ≤ ·) := by
  have hcanonical := h.canonical (r := g.refAt index) ⟨rfl, lt_size_of_node? hn⟩ hn
  have hsame : properties.mergeSort (fun p q => p.name ≤ q.name) = properties :=
    Node.object.inj hcanonical
  rw [← hsame, List.pairwise_map]
  exact pairwise_mergeSort_text

/-- **What is left in the end.** -/
theorem Descends.concludes {settings : Inference.Settings}
    (hg : built.Descends settings.plainStrings g) (hcollected : g.IsCollected settings.alphabetize)
    (hnone : ¬g.HasTwins settings.alphabetize) (hnormal : built.Normal)
    (hmarked : built.FirstMarked) (hoptions : built.options = settings.options) :
    built.Concludes settings g := by
  have htidy := hg.tidy hcollected hnone
  obtain ⟨found, hfound, hmarkers⟩ := exists_markers hg.among
  obtain ⟨found', hfound', hmarkers'⟩ := exists_markers hmarked.among
  have hsame : found' = found := by
    refine SortedSet.ext Nat.lt_irrefl fun marker => ?_
    rw [hmarkers, hmarkers', hg.hasMarker_iff]
  refine ⟨htidy, fun halphabetize {_ _} hn => ?_, fun hplain {index _} hn => ?_,
    ⟨found, hsame ▸ hfound', hfound, fun marker => ?_⟩, declaresSingly hg.among hg.children_lt,
    exists_snapshot hg.among⟩
  · exact (halphabetize ▸ hcollected : g.IsCollected true).sorted hn
  · exact hg.unformatted hplain (htidy.reaches (r := g.refAt index) ⟨rfl, lt_size_of_node? hn⟩) hn
  · rw [hmarkers, hg.hasMarker_iff, hmarked.hasMarker_iff hnormal.reaches, hoptions]

/-- The first generation of an inference is one of its generations. -/
theorem descends_self (hnormal : built.Normal) (hmarked : built.FirstMarked) :
    built.Descends false built where
  children_lt := hnormal.children_lt
  noIntersections := hnormal.noIntersections'
  among := hmarked.among
  hasMarker_iff := Iff.rfl
  unformatted := nofun

end Generation

/-! ### Inference -/

namespace Samples

open Generation

/-- **What is inferred from samples.** -/
theorem infer_concludes (samples : List (String × Json)) (settings : Inference.Settings) :
    ∃ built, (ofList samples).build settings.options = .ok built ∧
      ((ofList samples).infer settings).Gives fun g => built.Concludes settings g := by
  obtain ⟨built, hbuild, hnormal, hmarked, hoptions⟩ :=
    (build_normal samples settings.options).exists_ok fun _ => id
  have hstart : Ends ((ofList samples).build settings.options) (fun _ => False)
      (built.Descends false) := by
    rw [hbuild]
    exact descends_self hnormal hmarked
  have hplain : settings.plainStrings = true → ∀ g, built.Descends false g →
      (g.plainStrings settings.alphabetize).Ends (fun _ => False) (fun _ => False)
        (built.Descends settings.plainStrings) := by
    intro htrue g hg
    rw [htrue]
    exact hg.plainStrings_ends
  refine ⟨built, hbuild, infer_gives hstart (fun _ hg => hg.of_announce) hplain
    (fun hkept _ hg => hkept ▸ hg) fun g hg => hg.settle_ends.mono ?_⟩
  rintro settled ⟨hsettled, hnone⟩
  refine (hsettled.collect_ends hnone).mono ?_
  rintro _ ⟨new, rfl, hnew, hcollected, hnone'⟩
  exact ⟨new, rfl, hnew.concludes hcollected hnone' hnormal hmarked hoptions⟩

end Samples

/-! ### Jobs -/

namespace Job

variable {m : Type → Type} [Monad m] [LawfulMonad m]

/-- An inference that gives something returns it, and prints what was announced. -/
theorem ofInference_eq {r : Inference.Run Generation} {good : Generation → Prop}
    (h : r.Gives good) : ∃ g printed, good g ∧
      (Session.ofInference r : Session m Generation) = (do Session.print printed; return g) := by
  obtain ⟨⟨_, log⟩, hrun, g, rfl, hg⟩ := (h ⟨"", []⟩).exists_ok fun _ => id
  refine ⟨g, log.printed, hg, ?_⟩
  have hpure : (Session.ofExcept .fault (.ok (.ok g, log)) :
      Session m (Except Inference.Loss Generation × Log)) = pure (.ok g, log) := rfl
  rw [Session.ofInference, Inference.Run.start, hrun, hpure, pure_bind]
  rfl

/-- **An inference always ends with a graph that can be shown.** Whatever documents a job has, and
with every combination of switches, it builds a graph of them, prints what it has to announce, and
returns a graph that **concludes** the built one (`SchemaGraph.Generation.Concludes`). -/
theorem infer_settles [FileAccess m] (j : Job) {documents : List Json} (h : documents ≠ []) :
    ∃ built g printed,
      (Samples.ofList (documents.map (j.root, ·))).build j.settings.options = .ok built ∧
      (j.infer documents : Session m Generation) = (do Session.print printed; return g) ∧
      built.Concludes j.settings g ∧
      ∃ result, j.resultText g = .ok result := by
  obtain ⟨built, hbuild, hgives⟩ :=
    Samples.infer_concludes (documents.map (j.root, ·)) j.settings
  obtain ⟨g, printed, hg, hinfer⟩ := ofInference_eq (m := m) hgives
  refine ⟨built, g, printed, hbuild, ?_, hg, ?_⟩
  · have hseen : documents.foldl (fun seen sample => seen.observe j.root sample) Samples.empty =
        Samples.ofList (documents.map (j.root, ·)) := by
      rw [Samples.ofList, List.foldl_map]
      rfl
    rw [infer, if_neg (by simpa using h), hseen]
    exact hinfer
  · obtain ⟨snapshot, hsnapshot⟩ := hg.snapshot
    obtain ⟨declared, names, listing, -, -, -, hreport⟩ := hg.declared
    rw [resultText]
    split
    · exact ⟨_, congrArg (Except.map Json.pretty) hsnapshot⟩
    · exact ⟨_, hreport⟩

/-- A job that sorts properties, makes strings plain and tracks provenance. -/
def tidying : Job where
  inputs := ["trips.json"]
  ndjson := false
  pointer := none
  root := "Trip"
  provenance := true
  alphabetize := true
  plainStrings := true
  announce := true
  json := false
  out := none
  dryRun := false

/-- Two classes that are the same when strings are plain and properties are sorted. -/
def trips : List Json :=
  [.object
    [("to", .object [("day", .string "2024-05-01"), ("city", .string "Ulm")]),
      ("from", .object [("city", .string "Bonn"), ("day", .string "today")])],
    .object []]

theorem infer_settles_trips : trips ≠ [] ∧ ∃ built g printed,
    (Samples.ofList (trips.map ("Trip", ·))).build ⟨true⟩ = .ok built ∧
    (tidying.infer trips : Session (StateM FileSystem) Generation) =
      (do Session.print printed; return g) ∧
    built.Concludes tidying.settings g ∧
    ∃ result, tidying.resultText g = .ok result :=
  have h : trips ≠ [] := List.cons_ne_nil _ _
  ⟨h, tidying.infer_settles h⟩

end Job

end SchemaGraph
