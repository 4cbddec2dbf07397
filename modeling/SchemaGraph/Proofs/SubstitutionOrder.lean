import SchemaGraph.Proofs.IdentityTexts
import SchemaGraph.Proofs.MergeOrder
import SchemaGraph.Proofs.Rebuild.SideBySide

/-!
# The order of substitutions

The entries of a substitution say which nodes are rebuilt in place of others, and that does not depend on
how they are listed. The order shows where several nodes are substituted by one: it is the order in which
their attributes are merged. So the same nodes are built as long as it does not show in the identities of
nodes, and then the attributes are the same as far as kinds merge their values in any order
(`SchemaGraph.Generation.substitute_goOn`).

The two rebuildings are in step with new generations that differ in nothing but the attributes of nodes,
and there not in types.
-/

namespace SchemaGraph

variable {N : String → Prop}

/-! ### Drafts -/

/-- The drafts are the same but for attributes of nodes, which are alike. -/
def Draft.Alike (N : String → Prop) (b c : Draft) : Prop :=
  ∃ store, c = { b with store } ∧ b.store.Alike N store

/-- The attributes are alike, and add the same to identities. -/
def Attributes.Interchangeable (N : String → Prop) (s t : Attributes) : Prop :=
  s.Alike N t ∧ s.identityTexts = t.identityTexts

theorem Attributes.Alike.identityTexts_eq {s t : Attributes} (h : s.Alike N t)
    (hs : ∀ a ∈ s.toList, a.identityText = none ∨ N a.name)
    (ht : ∀ a ∈ t.toList, a.identityText = none ∨ N a.name) : s.identityTexts = t.identityTexts := by
  have hadds : ∀ {u v : Attributes}, (∀ name, N name → u.under name = v.under name) →
      (∀ a ∈ u.toList, a.identityText = none ∨ N a.name) → ∀ e, u.Adds e → v.Adds e := by
    rintro u v hvalues htexts e ⟨a, ha, hname, htext⟩
    have hN : N a.name := (htexts a ha).resolve_left fun hnone => by simp [hnone] at htext
    have hunder := hvalues a.name hN
    rw [under_eq_some_iff.2 ⟨ha, rfl⟩] at hunder
    exact ⟨a, (under_eq_some_iff.1 hunder.symm).1, hname, htext⟩
  refine identityTexts_eq_iff.2 fun e => ⟨hadds h.values hs e, hadds (fun name hname => ?_) ht e⟩
  exact (h.values name hname).symm

theorem Draft.Alike.serial {b c : Draft} (h : b.Alike N c) : b.serial = c.serial := by
  obtain ⟨store, rfl, hstore⟩ := h
  exact hstore.serial

theorem Draft.Alike.canonical {b c : Draft} {node : Node} (h : b.Alike N c) :
    b.canonical node = c.canonical node := by
  have hserial := h.serial
  obtain ⟨store, rfl, -⟩ := h
  have hfault : ∀ child, b.childFault? child = ({ b with store } : Draft).childFault? child :=
    fun child => by rw [childFault?, childFault?, hserial]; rfl
  rw [Draft.canonical, Draft.canonical, funext hfault]

namespace Build

/-- Actions in step on drafts that are alike. -/
abbrev GoOn {α : Type} (N : String → Prop) (x y : Build α) : Prop :=
  InStep (fun _ _ => True) (Draft.Alike N) x y

variable {s t : Attributes} {r slot target : Ref} {node : Node} {forwarding : Option Ref}

theorem goOn_reserve : GoOn N reserve reserve := by
  intro b c h
  have hserial := h.serial
  obtain ⟨store, rfl, hstore⟩ := h
  exact ⟨congrArg (Ref.mk · b.size) hserial, store, rfl, hstore⟩

theorem goOn_fill : GoOn N (fill r node) (fill r node) := by
  intro b c h
  rw [fill, fill, h.serial]
  obtain ⟨store, rfl, hstore⟩ := h
  refine Concur.bind (concur_self fun _ => trivial) fun _ _ _ => ?_
  dsimp only
  split
  · exact trivial
  · exact trivial
  · exact ⟨rfl, store, rfl, hstore⟩

theorem goOn_forward : GoOn N (forward r target) (forward r target) := by
  refine goOn_fill.bind fun _ => inStep_modify ?_
  rintro b _ ⟨store, rfl, hstore⟩
  exact ⟨store, rfl, hstore⟩

theorem goOn_identify {identity : Identity} : GoOn N (identify identity r) (identify identity r) := by
  rintro b _ ⟨store, rfl, hstore⟩
  exact ⟨rfl, store, rfl, hstore⟩

theorem goOn_addAttributes (h : s.Alike N t) : GoOn N (addAttributes r s) (addAttributes r t) := by
  rintro b _ ⟨store, rfl, hstore⟩
  rw [addAttributes_eq, addAttributes_eq]
  exact ((hstore.add h).mono fun store' store'' hstore' => ⟨rfl, store'', rfl, hstore'⟩).map

theorem goOn_addRootAttributes {root : String} :
    GoOn N (addRootAttributes root s) (addRootAttributes root s) := by
  rintro b _ ⟨store, rfl, hstore⟩
  exact hstore.addRoot.bind fun store' store'' hstore' => ⟨rfl, store'', rfl, hstore'⟩

theorem goOn_addRoot {root : String} : GoOn N (addRoot root r) (addRoot root r) := by
  intro b c h
  rw [addRoot, addRoot, h.serial]
  obtain ⟨store, rfl, hstore⟩ := h
  refine Concur.bind (concur_self fun _ => trivial) fun _ _ _ => ?_
  dsimp only
  split
  · split
    · exact ⟨rfl, store, rfl, hstore⟩
    · exact trivial
  · exact ⟨rfl, store, rfl, hstore⟩

theorem goOn_intern (h : s.Interchangeable N t) :
    GoOn N (intern node s forwarding) (intern node t forwarding) := by
  rw [intern, intern]
  refine inStep_get_bind fun b c hbc => ?_
  rw [hbc.canonical, h.2]
  refine inStep_lift_bind (concur_self fun _ => trivial) fun n _ hn => ?_
  subst hn
  obtain ⟨store, rfl, -⟩ := hbc
  dsimp only
  split
  · next known _ =>
    refine (goOn_addAttributes h.1).bind fun _ => ?_
    cases forwarding with
    | none => exact inStep_pure
    | some slot => exact goOn_forward.bind fun _ => inStep_pure
  · have hstored : ∀ r : Ref, GoOn N
        (do
          fill r n
          identify (n, t.identityTexts) r
          addAttributes r s
          if b.stamps then addAttributes r (.singleton .provenance (.singleton r.index))
          return r)
        (do
          fill r n
          identify (n, t.identityTexts) r
          addAttributes r t
          if b.stamps then addAttributes r (.singleton .provenance (.singleton r.index))
          return r) := fun r => by
      refine goOn_fill.bind fun _ => goOn_identify.bind fun _ => (goOn_addAttributes h.1).bind fun _ => ?_
      split
      · exact (goOn_addAttributes (.refl _)).bind fun _ => inStep_pure
      · exact inStep_pure
    cases forwarding with
    | none => exact goOn_reserve.bind hstored
    | some slot => exact hstored slot

theorem goOn_define (h : s.Interchangeable N t) : GoOn N (define r node s) (define r node t) := by
  rw [define, define]
  refine inStep_get_bind fun b c hbc => ?_
  rw [hbc.canonical, h.2]
  refine inStep_lift_bind (concur_self fun _ => trivial) fun n _ hn => ?_
  subst hn
  obtain ⟨store, rfl, -⟩ := hbc
  dsimp only
  split
  · exact goOn_fill.bind fun _ => goOn_addAttributes h.1
  · exact goOn_identify.bind fun _ => goOn_fill.bind fun _ => goOn_addAttributes h.1

end Build

theorem Edit.goOn_run (edit : Edit) : Build.GoOn N edit.run edit.run := by
  cases edit with
  | reserve => exact Build.goOn_reserve
  | intern node attributes forwarding => exact Build.goOn_intern ⟨.refl _, rfl⟩
  | annotate r attributes => exact Build.goOn_addAttributes (.refl _)
  | bindRoot root r => exact Build.goOn_addRoot
  | annotateRoot root attributes => exact Build.goOn_addRootAttributes

theorem Draft.steps_alike : Draft.Steps .any (Draft.Alike N) (Attributes.Interchangeable N) where
  edit := Edit.goOn_run
  forward _ _ := Build.goOn_forward
  intern _ _ _ _ h := Build.goOn_intern h
  define _ _ _ _ h := Build.goOn_define h
  forwarded h := by
    obtain ⟨store, rfl, -⟩ := h
    rfl

/-! ### Substitutions -/

namespace Plan

variable {map map' : OrderedMap Ref Ref} {serial : Nat}

/-- Each node is rebuilt in place of the same nodes, -/
theorem target_of_perm (h : map.entries.Perm map'.entries) (r : Ref) :
    (substitute map').target r = (substitute map).target r := by
  rw [target, target, OrderedMap.find?_of_perm h]

/-- which it substitutes in another order. -/
theorem sources_perm (h : map.entries.Perm map'.entries) (r : Ref) :
    ((substitute map).sources r).Perm ((substitute map').sources r) :=
  (h.filter _).map _

/-- Whether a substitution fits does not depend on the order of its entries. -/
theorem fault?_substitute_of_perm (h : map.entries.Perm map'.entries)
    (hfits : (substitute map).fault? serial = none) : (substitute map').fault? serial = none := by
  refine List.findSome?_eq_none_iff.2 fun entry hentry => ?_
  have hfaultless := List.findSome?_eq_none_iff.1 hfits entry (h.mem_iff.2 hentry)
  rw [entryFault?, OrderedMap.contains] at hfaultless ⊢
  rw [OrderedMap.find?_of_perm h]
  exact hfaultless

end Plan

namespace Generation

variable {g h k : Generation} {settings : Settings} {force : Bool} {map map' : OrderedMap Ref Ref}
  {P : AnyKind → Prop}

/-! ### Generations -/

/-- The generations are the same but for attributes of nodes, which are alike. -/
structure Alike (N : String → Prop) (h k : Generation) : Prop where
  options : h.options = k.options
  nodes : h.nodes = k.nodes
  roots : h.roots = k.roots
  announced : h.announced = k.announced
  store : h.store.Alike N k.store

/-- **Drafts that are alike are frozen alike.** -/
theorem ofDraft_concur {b c : Draft} (h : b.Alike N c) :
    Concur (fun _ _ => True) (Alike N) (ofDraft b) (ofDraft c) := by
  rw [ofDraft, ofDraft, h.serial]
  obtain ⟨store, rfl, hstore⟩ := h
  refine Concur.bind (concur_self fun _ => trivial) fun nodes _ heq => ?_
  subst heq
  have hother : Ends (freeze b.options nodes.toArray store b.roots) _ _ := freeze_ends_freezable
  rw [← hstore.serial] at hother
  refine concur_of_ends (fun _ _ => trivial) freeze_ends_freezable hother fun h k hh hk => ?_
  obtain ⟨hoptions, hnodes, hstored, hroots, hannounced⟩ := hh
  obtain ⟨hoptions', hnodes', hstored', hroots', hannounced'⟩ := hk
  exact ⟨hoptions.trans hoptions'.symm, hnodes.trans hnodes'.symm, hroots.trans hroots'.symm,
    hannounced.trans hannounced'.symm, hstored ▸ hstored' ▸ hstore⟩

/-- Generations that are alike can both be listed, or neither. -/
theorem Alike.listing (h' : h.Alike N k) :
    Concur (fun _ _ => True) (fun _ _ => True) h.listing k.listing := by
  have hname : ∀ index, Concur (fun _ _ => True) (fun _ _ => True) (h.nameOf (h.refAt index))
      (k.nameOf (k.refAt index)) := fun index => by
    rw [nameOf, nameOf, refAt, refAt, serial, serial, h'.store.serial]
    exact h'.store.find?.bind fun _ _ _ => trivial
  rw [Generation.listing, Generation.listing, h'.nodes]
  refine Concur.bind (concur_mapM fun e _ => ?_) fun _ _ _ => trivial
  exact (hname e.2).bind fun _ _ _ => trivial

/-- And the same markers are found in both. -/
theorem Alike.markers (h' : h.Alike N k) (hmarkers : N AttributeKind.provenance.name) :
    h.markers = k.markers := by
  have hfind : h.withMarkers = k.withMarkers := by
    funext found r
    rw [withMarkers, withMarkers, h'.store.find?_eq hmarkers]
  rw [markers_eq, markers_eq, reachable_congr h'.nodes h'.roots, hfind]

/-! ### Substitutions in another order -/

/-- The order in which attributes are merged does not show in what they add to identities. -/
def KeepsIdentities (g : Generation) (settings : Settings) (map map' : OrderedMap Ref Ref) : Prop :=
  ∀ r s t, (g.derivation (.substitute map) settings).attributes r = .ok s →
    (g.derivation (.substitute map') settings).attributes r = .ok t → s.identityTexts = t.identityTexts

/-- **Attributes are merged alike in any order**, as far as orderless kinds go. -/
theorem attributes_concur (h : map.entries.Perm map'.entries) (hg : g.store.Among P)
    (hfits : (Plan.substitute map).fault? g.serial = none) (r : Ref) :
    Concur (fun _ _ => True) (Attributes.Alike (Settled P))
      ((g.derivation (.substitute map) settings).attributes r)
      ((g.derivation (.substitute map') settings).attributes r) := by
  rw [Derivation.attributes_eq (d := g.derivation (.substitute map) settings) hfits,
    Derivation.attributes_eq (d := g.derivation (.substitute map') settings)
      (Plan.fault?_substitute_of_perm h hfits)]
  refine Attributes.foldlM_combine_concur ((Plan.sources_perm h r).map _) (hg r.index) fun s hs => ?_
  obtain ⟨source, -, rfl⟩ := List.mem_map.1 hs
  exact hg source.index

/-- Orderless kinds add the same to identities in any order. -/
theorem keepsIdentities_of_settled (h : map.entries.Perm map'.entries) (hg : g.store.Among P)
    (hfits : (Plan.substitute map).fault? g.serial = none)
    (hP : ∀ k, P k → k.2.identity = none ∨ Settled P k.2.name) :
    g.KeepsIdentities settings map map' := by
  intro r s t hs ht
  have halike : Concur _ _ ((g.derivation (.substitute map) settings).attributes r) _ :=
    attributes_concur h hg hfits r
  rw [hs, ht] at halike
  have htexts : ∀ {m u}, (Plan.substitute m).fault? g.serial = none →
      (g.derivation (.substitute m) settings).attributes r = .ok u →
        ∀ a ∈ u.toList, a.identityText = none ∨ Settled P a.name := by
    intro m u hm hu a ha
    have hamong := (Derivation.attributes_ends (d := g.derivation (.substitute m) settings) hm hg
      r).of_eq_ok hu
    refine (hP _ (hamong a ha)).imp_left fun hnone => ?_
    rw [Attribute.identityText, show a.kind.identity = none from hnone, Option.map_none]
  exact Attributes.Alike.identityTexts_eq halike (htexts hfits hs)
    (htexts (Plan.fault?_substitute_of_perm h hfits) ht)

/-- **The nodes are rebuilt alike**, or the substitution fits neither way. -/
theorem run_substitute_concur (h : map.entries.Perm map'.entries) (hg : g.store.Among P)
    (hkeeps : g.KeepsIdentities settings map map') :
    Concur (fun _ _ => True) (Workspace.GoWith .any (Draft.Alike (Settled P)))
      (g.derivation (.substitute map) settings).run (g.derivation (.substitute map') settings).run := by
  by_cases hfits : (Plan.substitute map).fault? g.serial = none
  · have hparallel : (g.derivation (.substitute map) settings).Parallel .any
        (Attributes.Interchangeable (Settled P)) (g.derivation (.substitute map') settings) :=
      ⟨rfl, Plan.target_of_perm h, rfl, rfl, fun _ => rfl, fun r =>
        (attributes_concur h hg hfits r).with_eq.mono fun s t hst => ⟨hst.2.2, hkeeps r s t hst.1 hst.2.1⟩⟩
    exact Derivation.run_concur hparallel Draft.steps_alike hfits
      (Plan.fault?_substitute_of_perm h hfits) (fun _ _ _ _ => nofun) ⟨_, rfl, .refl _⟩
      fun _ _ _ _ => ⟨rfl, rfl⟩
  · have hfits' : (Plan.substitute map').fault? g.serial ≠ none := fun hnone =>
      hfits (Plan.fault?_substitute_of_perm h.symm hnone)
    obtain ⟨fault, hfault⟩ := Option.ne_none_iff_exists'.1 hfits
    obtain ⟨fault', hfault'⟩ := Option.ne_none_iff_exists'.1 hfits'
    rw [Derivation.run_eq_error (d := g.derivation (.substitute map) settings) hfault,
      Derivation.run_eq_error (d := g.derivation (.substitute map') settings) hfault']
    trivial

end Generation

/-- What two transformations made is the same but for attributes of nodes, which are alike. -/
def Outcome.Alike (N : String → Prop) : Outcome → Outcome → Prop
  | unchanged, unchanged => True
  | derived h, derived k => h.Alike N k
  | unchanged, derived _ | derived _, unchanged => False

namespace Generation

variable {g : Generation} {settings : Settings} {force : Bool} {map map' : OrderedMap Ref Ref}
  {P : AnyKind → Prop}

/-- **Substitutions may be listed in any order**, as far as it does not show in identities. Whether they
are carried out does not depend on the order, nor do the nodes and the roots that come of it, and the
attributes of nodes are the same as far as orderless kinds go. -/
theorem substitute_goOn (h : map.entries.Perm map'.entries) (hg : g.store.Among P)
    (hkeeps : g.KeepsIdentities settings map map')
    (hmarkers : g.options.trackProvenance = true → Settled P AttributeKind.provenance.name) :
    (g.substitute settings map force).GoOn .any (Outcome.Alike (Settled P))
      (g.substitute settings map' force) := by
  have hself : ∀ {α : Type} {x : Except Fault α}, Concur (fun _ _ => True) Eq x x :=
    concur_self fun _ => trivial
  have haudit : ∀ h k, h.Alike (Settled P) k →
      g.lostMarkers? h settings.title = g.lostMarkers? k settings.title := by
    intro h k halike
    rw [lostMarkers?, lostMarkers?]
    cases htrack : g.options.trackProvenance with
    | false => rfl
    | true => rw [halike.markers (hmarkers htrack)]
  rw [substitute, substitute, OrderedMap.isEmpty, OrderedMap.isEmpty, h.isEmpty_eq]
  split
  · exact Transform.goOn_pure trivial
  · refine Transform.GoOn.bind (derive_goOn (run_substitute_concur h hg hkeeps) (fun w w' hw => ?_)
      (fun b c hbc => Draft.steps_alike.forwarded hbc) (fun b c hbc => ?_)
      (fun h k halike => halike.store.serial) (fun h k halike => halike.listing)
      fun h k halike => haudit h k halike ▸ hself) fun out out' hout => Transform.goOn_pure hout.1
    · rw [Draft.steps_alike.forwarded hw.draft]
      exact hself
    · refine (ofDraft_concur hbc).mono fun h k halike => ?_
      exact ⟨halike.options, halike.nodes, halike.roots, rfl, halike.store⟩

end Generation

end SchemaGraph
