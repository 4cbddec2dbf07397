import SchemaGraph.Proofs.Rebuild.Keeps

/-!
# The roots of a derived generation

A derivation binds the roots of the old generation, one after the other, to whatever their nodes have
become, and nothing else binds a root or gives one attributes unless a script does. So if scripts
leave the roots alone (`SchemaGraph.Script.SparesRoots`), each name is new when its turn comes: it is
never bound already, and it gets the attributes that it had
(`SchemaGraph.Derivation.run_bindsRoots`). What the nodes behind the roots have become makes no
difference, be they substituted, replaced, or still being rebuilt.
-/

namespace SchemaGraph

/-! ### Scripts that leave the roots alone -/

/-- The operation does not touch a root. -/
def Edit.SparesRoots : Edit → Prop
  | reserve | intern .. | annotate .. => True
  | bindRoot .. | annotateRoot .. => False

/-- The script does not touch a root, whatever it is answered. -/
def Script.SparesRoots {α : Type} (script : Script α) : Prop :=
  script.Only Edit.SparesRoots Fault.SparesRoots

/-! ### Faults of plans and of merges -/

/-- What is wrong with a plan has nothing to do with roots, or with indirections. -/
theorem Plan.isOrdinary_of_fault? {p : Plan} {serial : Nat} {f : Fault}
    (h : p.fault? serial = some f) : f.IsOrdinary := by
  have hgroups : ∀ (groups earlier : List Group), groupsFault? serial earlier groups = some f →
      f.IsOrdinary := by
    intro groups
    induction groups with
    | nil => rintro _ ⟨⟩
    | cons group rest ih =>
      intro earlier hfault
      rw [groupsFault?] at hfault
      split at hfault
      · obtain rfl := Option.some.inj hfault
        trivial
      · rcases Option.or_eq_some_iff.1 hfault with hmember | ⟨-, hrest⟩
        · obtain ⟨m, -, hm⟩ := List.exists_of_findSome?_eq_some hmember
          rw [memberFault?] at hm
          split at hm
          · obtain rfl := Option.some.inj hm
            trivial
          · obtain ⟨found, -, rfl⟩ := Option.map_eq_some_iff.1 hm
            trivial
        · exact ih _ hrest
  cases p with
  | replace groups => exact hgroups groups [] h
  | substitute map =>
    obtain ⟨e, -, he⟩ := List.exists_of_findSome?_eq_some h
    rw [entryFault?] at he
    grind [Fault.IsOrdinary]

/-- Nothing goes wrong in a merge that has to do with roots, or with indirections. -/
theorem Attributes.combine_ordinary {s t : Attributes} :
    Ends (s.combine t) Fault.IsOrdinary fun _ => True := by
  have hone : ∀ {a b : Attribute}, Ends (a.combine b) Fault.IsOrdinary fun _ => True := by
    intro a b
    unfold Attribute.combine Attribute.read
    split
    · trivial
    · trivial
  have hlist : ∀ (a : Attribute) (as : List Attribute),
      Ends (a.mergeInto as) Fault.IsOrdinary fun _ => True := by
    intro a as
    induction as with
    | nil => trivial
    | cons b rest ih =>
      rw [Attribute.mergeInto]
      split
      · exact Ends.map hone
      · exact Ends.map ih
  have hmerge : ∀ (s : Attributes) (a : Attribute), Ends (s.merge a) Fault.IsOrdinary fun _ => True := by
    intro s a
    rw [merge]
    split
    · next f hf => exact (hlist a s.toList).of_eq_error hf
    · trivial
  rw [combine]
  split
  · trivial
  · exact Ends.foldlM (fun s _ a _ => hmerge s a) trivial

/-- The roots and their attributes are as they were. -/
def Draft.RootsAre (roots : OrderedMap String Ref) (attributes : OrderedMap String Attributes)
    (b : Draft) : Prop :=
  b.roots = roots ∧ b.store.roots = attributes

variable {roots : OrderedMap String Ref} {attributes : OrderedMap String Attributes}

theorem Draft.ofEntries_rootsAre : Draft.OfEntries (Draft.RootsAre roots attributes) :=
  fun hb hstore hroots => ⟨hroots.trans hb.1, hstore ▸ hb.2⟩

namespace Build

theorem keepsRoots_addAttributes {r : Ref} {added : Attributes} :
    Keeps Fault.IsOrdinary (Draft.RootsAre roots attributes) (addAttributes r added) := by
  intro b hb
  have hadd : Ends (b.store.add r added) Fault.IsOrdinary fun _ => True := by
    refine Ref.requireSerial_ends.bind fun _ _ => ?_
    split
    · trivial
    · rw [Attributes.mergeFound_eq]
      exact Attributes.combine_ordinary.bind fun _ _ => trivial
  rw [addAttributes_eq]
  refine Ends.map (hadd.with_eq.mono fun store hstore => ⟨hb.1, ?_⟩)
  exact (AttributeStore.writes_of_add hstore.1).roots.trans hb.2

end Build

theorem Edit.keepsRoots_run {edit : Edit} (h : edit.SparesRoots) :
    Keeps Fault.IsOrdinary (Draft.RootsAre roots attributes) edit.run := by
  cases edit with
  | reserve => exact Build.keeps_reserve Draft.ofEntries_rootsAre.tolerates
  | intern node added forwarding =>
    exact Build.keeps_intern (fun _ => id) Draft.ofEntries_rootsAre.tolerates
      (fun _ _ _ _ => trivial) (fun _ => Build.keepsRoots_addAttributes)
      fun _ _ => Build.keepsRoots_addAttributes
  | annotate r added => exact Build.keepsRoots_addAttributes
  | bindRoot root r => exact False.elim h
  | annotateRoot root added => exact False.elim h

namespace Derivation

open Rebuild

variable {d : Derivation}

/-- The roots of these names are bound, in this order, and have the attributes that they had before. -/
structure BindsRoots (d : Derivation) (names : List String) (w : Workspace) : Prop where
  keys : w.draft.roots.keys = names
  attributes : ∀ name ∈ names, w.draft.store.ofRoot name = d.old.store.ofRoot name
  rest : ∀ name ∉ names, w.draft.store.roots.find? name = none

/-- Where the roots are as they were, they are still bound. -/
theorem BindsRoots.of_rootsAre {names : List String} {w v : Workspace} (h : d.BindsRoots names w)
    (hv : v.draft.RootsAre w.draft.roots w.draft.store.roots) : d.BindsRoots names v where
  keys := (congrArg OrderedMap.keys hv.1).trans h.keys
  attributes name hname := by
    rw [AttributeStore.ofRoot, hv.2]
    exact h.attributes name hname
  rest name hname := by
    rw [hv.2]
    exact h.rest name hname

section Scripts

variable {bad : Fault → Prop} (hbad : ∀ f : Fault, f.IsOrdinary → bad f)
  (hscripts : ∀ group ∈ d.plan.groups, ∀ slot, (group.script slot).Only Edit.SparesRoots bad)

include hbad

omit hscripts in
theorem keepsRoots_edit {edit : Edit} (h : edit.SparesRoots) :
    Keeps bad (Draft.RootsAre roots attributes) edit.run :=
  (edit.keepsRoots_run h).mono_bad hbad

include hscripts

theorem keepsRoots_visit (depth : Nat) (path : List Nat) (r : Ref) :
    KeepsDraft bad (Draft.RootsAre roots attributes) (d.visit depth path r) := by
  refine keepsDraft_visit hbad Draft.ofEntries_rootsAre.tolerates (fun old _ _ _ _ => ?_)
    (fun visit hvisit group hgroup slot =>
      keepsDraft_runScript hvisit (fun _ => keepsRoots_edit hbad) (hscripts group hgroup slot))
    depth path r
  have hattributes : Ends (d.attributes old) Fault.IsOrdinary fun _ => True := by
    refine Ends.foldlM (fun found _ s _ => ?_) trivial
    have hsource : Ends (d.old.attributes s) Fault.IsOrdinary fun _ => True :=
      Ref.requireSerial_ends.bind fun _ _ => Ends.ok_iff.2 trivial
    exact hsource.bind fun source _ => Attributes.combine_ordinary
  have hadd : ∀ (s : Ref) (added : Attributes),
      Keeps bad (Draft.RootsAre roots attributes) (Build.addAttributes s added) :=
    fun _ _ => Build.keepsRoots_addAttributes.mono_bad hbad
  exact keepsDraft_settle hbad Draft.ofEntries_rootsAre.tolerates (fun _ _ _ _ => trivial)
    ((hattributes.mono_bad hbad).mono fun _ _ _ => hadd _ _) fun _ _ => hadd _ _

/-- The next root is bound under its name, which is new. -/
theorem rebuildRoot_bindsRoots {e : String × Ref} {names : List String} {w : Workspace}
    (hw : d.BindsRoots names w) (hname : e.1 ∉ names) :
    Ends (d.rebuildRoot e w) bad fun out => d.BindsRoots (names ++ [e.1]) out.2 := by
  refine ends_bind (keepsRoots_visit hbad hscripts _ _ e.2 w ⟨rfl, rfl⟩) fun new v hv => ?_
  have hv : d.BindsRoots names v := hw.of_rootsAre hv
  have hfree : v.draft.roots.find? e.1 = none := by
    rw [OrderedMap.find?_eq_none_iff, hv.keys]
    exact hname
  by_cases hserial : new.serial = v.draft.serial
  · obtain ⟨added, hadded, helsewhere, hhere⟩ := Build.addRootAttributes_eq
      { v.draft with roots := v.draft.roots.insert e.1 new } (d.old.store.ofRoot e.1)
      (hv.rest e.1 hname)
    rw [bind_eq (build_eq (Build.addRoot_eq hserial hfree)), build_eq hadded]
    refine ⟨?_, fun name hmem => ?_, fun name hmem => ?_⟩
    · change (v.draft.roots.insert e.1 new).keys = _
      rw [OrderedMap.keys_insert, hv.keys, if_neg hname]
    · change (added.find? name).getD ∅ = _
      rcases List.mem_append.1 hmem with hmem | hmem
      · rw [helsewhere name fun heq => hname (heq ▸ hmem)]
        exact hv.attributes name hmem
      · obtain rfl := List.mem_singleton.1 hmem
        exact hhere
    · rw [List.mem_append, List.mem_singleton, not_or] at hmem
      change added.find? name = none
      rw [helsewhere name hmem.2]
      exact hv.rest name hmem.1
  · -- a reference of another generation is not bound
    have hadd : build (Build.addRoot e.1 new) v = .error (.wrongGeneration new v.draft.serial) := by
      rw [build, Build.addRoot, Ref.requireSerial, if_neg hserial]
      rfl
    have hends : Ends (build (Build.addRoot e.1 new) v) bad fun _ => False := by
      rw [hadd]
      exact hbad _ trivial
    exact ends_bind hends fun _ _ => False.elim

theorem rebuildRoots_bindsRoots :
    Ends (d.rebuildRoots d.workspace) bad fun out =>
      d.BindsRoots d.old.roots.keys out.2 := by
  have hstart : d.BindsRoots [] d.workspace := ⟨rfl, nofun, fun _ _ => rfl⟩
  rw [rebuildRoots_eq]
  refine ends_forM (fun done => d.BindsRoots (done.map Prod.fst)) (fun {done e rest} hall w hw => ?_)
    hstart
  rw [List.map_append]
  exact rebuildRoot_bindsRoots hbad hscripts hw (OrderedMap.not_mem_keys_of_entries_eq hall)

/-- **A derivation rebinds the roots**: the new generation has those of the old one, in the same
order and with the same attributes, and none of them is ever bound already. -/
theorem run_bindsRoots :
    Ends d.run bad fun w => d.BindsRoots d.old.roots.keys w := by
  rw [run]
  split
  · next f hf => exact hbad f (Plan.isOrdinary_of_fault? hf)
  · have hpending : ∀ (group : Group) (number : Nat), group ∈ d.plan.groups →
        Keeps bad (d.BindsRoots d.old.roots.keys)
          (do let _ ← d.runGroup d.visitRoot number group) := by
      intro group number hgroup w hw
      have hkeeps : KeepsDraft bad
          (Draft.RootsAre w.draft.roots w.draft.store.roots) (d.runGroup d.visitRoot number group) :=
        keepsDraft_runGroup hbad Draft.ofEntries_rootsAre.tolerates fun slot =>
          keepsDraft_runScript (fun _ => keepsRoots_visit hbad hscripts _ _ _)
            (fun _ => keepsRoots_edit hbad) (hscripts group hgroup slot)
      exact ends_bind (hkeeps w ⟨rfl, rfl⟩) fun _ v hv => hw.of_rootsAre hv
    have hall : Ends (d.rebuildAll d.workspace) bad fun out =>
        d.BindsRoots d.old.roots.keys out.2 := by
      rw [rebuildAll]
      refine ends_bind (rebuildRoots_bindsRoots hbad hscripts) fun _ w hw => ?_
      refine (keeps_get_bind fun v _ => Keeps.bind (keeps_forM fun e he => ?_) fun _ =>
        keeps_get_bind fun v _ => ?_) w hw
      · exact hpending e.1 e.2 (List.mem_of_getElem? (mem_pendingGroups he))
      · split
        · exact keeps_pure
        · exact fun _ _ => hbad _ trivial
    exact hall.bind fun _ h => h

end Scripts

end Derivation

end SchemaGraph
