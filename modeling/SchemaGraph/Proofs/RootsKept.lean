import SchemaGraph.Proofs.Rebuild.Roots
import SchemaGraph.Proofs.Replacement

/-!
# Roots are kept

Whatever is done to a graph, its roots stay. They have the same names in the same order and the same
attributes after any chain of transformations whose scripts leave the roots alone, and no such
transformation fails because a root is bound already (`SchemaGraph.Generation.transformAll_keepsRoots`).
A root may meanwhile be substituted or replaced, lie on a cycle or become an indirection: what it leads
to changes, and is always a node of the generation at the end of the chain.

The rebuilding of each generation binds the roots anew (`SchemaGraph.Derivation.run_bindsRoots`); here
this is followed through all that a transformation does besides, and through the generations that
one transformation builds in a row.
-/

namespace SchemaGraph

namespace Generation

variable {g h : Generation} {settings : Settings} {force : Bool}

/-- The later generation has the roots of the earlier one, in the same order and with the same
attributes. -/
structure KeepsRoots (g h : Generation) : Prop where
  names : h.roots.keys = g.roots.keys
  attributes : ∀ name ∈ g.roots.keys, h.store.ofRoot name = g.store.ofRoot name

theorem KeepsRoots.refl (g : Generation) : g.KeepsRoots g := ⟨rfl, fun _ _ => rfl⟩

theorem KeepsRoots.trans {k : Generation} (hgh : g.KeepsRoots h) (hhk : h.KeepsRoots k) :
    g.KeepsRoots k where
  names := hhk.names.trans hgh.names
  attributes name hname :=
    (hhk.attributes name (hgh.names ▸ hname)).trans (hgh.attributes name hname)

/-! ### Faults besides rebuilding -/

theorem find?_ordinary {t : ValueType} {kind : AttributeKind t} {r : Ref} :
    Ends (g.store.find? kind r) Fault.IsOrdinary fun _ => True := by
  have hnode : Ends (g.store.ofNode r) Fault.IsOrdinary fun _ => True :=
    Ref.requireSerial_ends.bind fun _ _ => Ends.ok_iff.2 trivial
  rw [AttributeStore.find?_eq_ofNode]
  refine hnode.bind fun found _ => ?_
  rw [Attributes.find?]
  split
  · trivial
  · refine Ends.map ?_
    unfold Attribute.read
    split
    · trivial
    · trivial

theorem listing_ordinary : Ends g.listing Fault.IsOrdinary fun _ => True := by
  refine (Ends.mapM fun e _ => ?_).bind fun _ _ => trivial
  have hname : Ends (g.nameOf (g.refAt e.2)) Fault.IsOrdinary fun _ => True :=
    find?_ordinary.bind fun _ _ => trivial
  exact hname.bind fun _ _ => trivial

theorem markers_ordinary : Ends g.markers Fault.IsOrdinary fun _ => True := by
  rw [markers_eq]
  refine Ends.foldlM (fun found _ r _ => find?_ordinary.bind fun here _ => ?_) trivial
  cases here <;> trivial

/-- What is wrong with a draft that cannot be frozen has nothing to do with bound roots, or with
indirections. -/
theorem ofDraft_ordinary {b : Draft} : Ends (ofDraft b) Fault.IsOrdinary fun _ => True := by
  have hslots : ∀ (slots : List (Option Node)) (index : Nat),
      Ends (filledSlots b.serial index slots) Fault.IsOrdinary fun _ => True := by
    intro slots
    induction slots with
    | nil => exact fun _ => trivial
    | cons slot rest ih =>
      intro index
      cases slot with
      | none => trivial
      | some node => exact Ends.map (ih (index + 1))
  have hchildren : ∀ (size : Nat) (nodes : List Node) (index : Nat) (f : Fault),
      childrenFault? b.store.serial size index nodes = some f → f.IsOrdinary := by
    intro size nodes
    induction nodes with
    | nil => exact fun _ _ => nofun
    | cons node rest ih =>
      intro index f hf
      rcases Option.or_eq_some_iff.1 hf with hnode | ⟨-, hrest⟩
      · obtain ⟨c, -, hc⟩ := List.exists_of_findSome?_eq_some hnode
        rw [childFault?] at hc
        grind [Fault.IsOrdinary]
      · exact ih (index + 1) f hrest
  refine Ends.bind (hslots _ _) fun nodes _ => ?_
  rw [freeze]
  split
  · next f hf => exact hchildren _ _ _ f hf
  · split
    · next f hf =>
      obtain ⟨r, -, hr⟩ := List.exists_of_findSome?_eq_some hf
      rw [rootFault?] at hr
      have hordinary : f.IsOrdinary := by grind [Fault.IsOrdinary]
      exact hordinary
    · trivial

theorem audit?_ordinary {w : Workspace} {title : String} :
    Ends (g.audit? w h title) Fault.IsOrdinary fun _ => True := by
  rw [audit?, lostMarkers?]
  split
  · trivial
  · split
    · trivial
    · exact markers_ordinary.bind fun _ _ => markers_ordinary.bind fun _ _ => trivial

theorem chains_ordinary {indirections : List (Ref × Ref)} :
    Ends (chains indirections) Fault.IsOrdinary fun _ => True := by
  unfold chains Digraph.ofSuccessors
  dsimp only
  split
  · trivial
  · trivial

/-! ### Transformations -/

/-- **A derivation keeps the roots** if its scripts leave them alone. -/
theorem derive_keepsRoots {plan : Plan} {accept : Workspace → Except Fault Unit}
    {bad : Fault → Prop} (hbad : ∀ f : Fault, f.IsOrdinary → bad f)
    (hscripts : ∀ group ∈ plan.groups, ∀ slot, (group.script slot).Only Edit.SparesRoots bad)
    (haccept : ∀ w, Ends (accept w) Fault.IsOrdinary fun _ => True) :
    (g.derive plan settings accept).Ends bad (fun _ => True) fun out => g.KeepsRoots out.1 := by
  have hrun : Ends (g.derivation plan settings).run bad _ := Derivation.run_bindsRoots hbad hscripts
  refine derive_ends_of (listing_ordinary.mono_bad hbad)
    (hrun.mono fun w hw => ⟨(haccept w).mono_bad hbad, ?_⟩)
  refine (ofDraft_ordinary.mono_bad hbad).with_eq.mono fun built hbuilt =>
    ⟨listing_ordinary.mono_bad hbad, ?_⟩
  obtain ⟨-, -, hstore, hroots⟩ := of_ofDraft hbuilt.1
  refine (audit?_ordinary.mono_bad hbad).mono fun found _ => ?_
  cases found with
  | some e => trivial
  | none =>
    refine ⟨(congrArg OrderedMap.keys hroots).trans hw.keys, fun name hname => ?_⟩
    exact (congrArg (·.ofRoot name) hstore).trans (hw.attributes name hname)

/-- A substitution runs no scripts, so what it can meet is ordinary. -/
theorem substitute_keepsRoots {map : OrderedMap Ref Ref} :
    (g.substitute settings map force).Ends Fault.IsOrdinary (fun _ => True) fun out =>
      g.KeepsRoots (out.after g) := by
  rw [substitute]
  split
  · exact Transform.ends_pure (.refl g)
  · refine (derive_keepsRoots (fun _ => id) (by simp [Plan.groups]) fun w => ?_).bind fun out hout =>
      Transform.ends_pure hout
    split
    · trivial
    · trivial

theorem removeIndirections_keepsRoots {alphabetize announce : Bool} :
    (g.removeIndirections alphabetize announce).Ends Fault.SparesRoots (fun _ => True) fun out =>
      g.KeepsRoots (out.after g) := by
  rw [removeIndirections]
  dsimp only
  split
  · exact Transform.ends_pure (.refl g)
  · refine (Transform.ends_ofExcept
      (chains_ordinary.mono_bad fun _ => Fault.IsOrdinary.sparesRoots)).bind fun graph _ => ?_
    split
    · rintro _ _ _ ⟨⟩
    · exact substitute_keepsRoots.mono_bad fun _ => Fault.IsOrdinary.sparesRoots

/-- A replacement keeps the roots, also if it removes indirections in the end. -/
theorem replace_keepsRoots {groups : List Group}
    (hscripts : ∀ group ∈ groups, ∀ slot, (group.script slot).SparesRoots) :
    (g.replace settings groups force).Ends Fault.SparesRoots (fun _ => True) fun out =>
      g.KeepsRoots (out.after g) := by
  rw [replace]
  split
  · exact Transform.ends_pure (.refl g)
  · have hderive : (g.derive (.replace groups) settings fun _ => .ok ()).Ends Fault.SparesRoots
        (fun _ => True) fun out => g.KeepsRoots out.1 :=
      derive_keepsRoots (fun _ => Fault.IsOrdinary.sparesRoots) hscripts fun _ => trivial
    refine hderive.bind ?_
    rintro ⟨new, forwarded⟩ hnew
    cases forwarded with
    | false => exact Transform.ends_pure hnew
    | true =>
      refine removeIndirections_keepsRoots.bind fun out hout => ?_
      exact Transform.ends_pure (hnew.trans hout)

theorem settle_keepsRoots {alphabetize announce : Bool} :
    (g.settle alphabetize announce).Ends Fault.SparesRoots (fun _ => True) g.KeepsRoots := by
  have hstep : ∀ k, g.KeepsRoots k → (k.rebuildOnce alphabetize announce).Ends Fault.SparesRoots
      (fun _ => True) fun next => g.KeepsRoots next ∧ True := fun k hk =>
    (replace_keepsRoots (by simp)).bind fun out hout => Transform.ends_pure ⟨hk.trans hout, trivial⟩
  exact (settle_ends hstep (.refl g)).mono fun _ h => h.1

/-! ### Chains of transformations -/

/-- A transformation, with what it is told. -/
inductive Transformation
  | replace (settings : Settings) (groups : List Group) (force : Bool)
  | substitute (settings : Settings) (map : OrderedMap Ref Ref) (force : Bool)
  | collect (alphabetize announce : Bool)
  | settle (alphabetize announce : Bool)
  | removeIndirections (alphabetize announce : Bool)

namespace Transformation

/-- The generation after a transformation. -/
def run (g : Generation) : Transformation → Transform Generation
  | replace settings groups force => return (← g.replace settings groups force).after g
  | substitute settings map force => return (← g.substitute settings map force).after g
  | collect alphabetize announce => return (← g.collect alphabetize announce).after g
  | settle alphabetize announce => g.settle alphabetize announce
  | removeIndirections alphabetize announce =>
    return (← g.removeIndirections alphabetize announce).after g

/-- The scripts of the transformation, if it has any, leave the roots alone. -/
def SparesRoots : Transformation → Prop
  | replace _ groups _ => ∀ group ∈ groups, ∀ slot, (group.script slot).SparesRoots
  | substitute .. | collect .. | settle .. | removeIndirections .. => True

theorem run_keepsRoots {t : Transformation} (ht : t.SparesRoots) :
    (t.run g).Ends Fault.SparesRoots (fun _ => True) g.KeepsRoots := by
  cases t with
  | replace settings groups force =>
    exact (replace_keepsRoots ht).bind fun _ hout => Transform.ends_pure hout
  | substitute settings map force =>
    exact (substitute_keepsRoots.mono_bad fun _ => Fault.IsOrdinary.sparesRoots).bind
      fun _ hout => Transform.ends_pure hout
  | collect alphabetize announce =>
    exact (substitute_keepsRoots.mono_bad fun _ => Fault.IsOrdinary.sparesRoots).bind
      fun _ hout => Transform.ends_pure hout
  | settle alphabetize announce => exact settle_keepsRoots
  | removeIndirections alphabetize announce =>
    exact removeIndirections_keepsRoots.bind fun _ hout => Transform.ends_pure hout

end Transformation

/-- The generation after one transformation after the other. -/
def transformAll (g : Generation) (ts : List Transformation) : Transform Generation :=
  ts.foldlM Transformation.run g

theorem transformAll_ends (ts : List Transformation) (hts : ∀ t ∈ ts, t.SparesRoots) :
    (g.transformAll ts).Ends Fault.SparesRoots (fun _ => True) g.KeepsRoots := by
  rw [transformAll]
  induction ts generalizing g with
  | nil => exact Transform.ends_pure (.refl g)
  | cons t rest ih =>
    rw [List.foldlM_cons]
    refine (Transformation.run_keepsRoots (hts t (by simp))).bind fun mid hmid => ?_
    exact (ih fun u hu => hts u (by simp [hu])).mono fun _ hend => hmid.trans hend

/-- **Roots are kept along every chain of transformations** whose scripts leave them alone. No
transformation of the chain fails because a root is bound already, and what the chain returns has the
roots that there were, in the same order and with the same attributes; they lead to nodes of what is
returned, as do all children. -/
theorem transformAll_keepsRoots (g : Generation) (ts : List Transformation)
    (hts : ∀ t ∈ ts, t.SparesRoots) :
    (∀ log root bound, (g.transformAll ts).run.run log ≠ .error (.rootBound root bound)) ∧
    ∀ h, (g.transformAll ts).Returns h →
      h.roots.keys = g.roots.keys ∧
      (∀ name ∈ g.roots.keys, h.store.ofRoot name = g.store.ofRoot name) ∧
      (∀ node ∈ h.nodes, ∀ c ∈ node.children, c.serial = h.serial ∧ c.index < h.size) ∧
      ∀ r ∈ h.roots.values, r.serial = h.serial ∧ r.index < h.size := by
  have hends := transformAll_ends (g := g) ts hts
  refine ⟨fun log root bound hrun => (hends log).of_eq_error hrun root bound rfl, fun h hreturns => ?_⟩
  have hkept := hends.of_returns hreturns
  exact ⟨hkept.names, hkept.attributes, h.children_inBounds, h.roots_inBounds⟩

/-- A class that is an item of the array that it holds, with a root for each of them. -/
def circular : Generation where
  options := ⟨false⟩
  nodes := #[.object [⟨"all", ⟨0, 1⟩, false⟩], .array ⟨0, 0⟩]
  store :=
    { serial := 0
      slots := #[]
      roots := .ofList [("one", .singleton .description (.singleton "an item"))] }
  roots := .ofList [("all", ⟨0, 1⟩), ("one", ⟨0, 0⟩)]
  announced := false
  children_inBounds := by decide
  roots_inBounds := by decide

/-- The array becomes a map. -/
def keyed : Group where
  members := [⟨0, 1⟩]
  script slot := do
    let one ← Script.visit ⟨0, 0⟩
    Script.intern (.map one) ∅ (some slot)

/-- The array is replaced, after a substitution that does nothing. -/
def keying : List Transformation :=
  [.substitute ⟨"nothing", .preserving, false, false⟩ ∅ false,
    .replace ⟨"key", .preserving, false, false⟩ [keyed] false]

/-- The first root becomes a map, to whose slot the class led already, and the second one keeps its
description. -/
theorem transformAll_keepsRoots_keying :
    ∃ h, (circular.transformAll keying).Returns h ∧ h.serial = 1 ∧
      h.roots.keys = ["all", "one"] ∧ h.store.ofRoot "one" = circular.store.ofRoot "one" := by
  obtain ⟨-, hkept⟩ := transformAll_keepsRoots circular keying fun t ht => by
    rcases List.mem_pair.1 ht with rfl | rfl
    · exact trivial
    · rintro group hgroup slot
      obtain rfl := List.mem_singleton.1 hgroup
      exact fun _ => ⟨trivial, fun _ => trivial⟩
  have hpasses : (circular.transformAll keying).passes (fun h _ => h.serial = 1) = true := by
    decide +kernel
  obtain ⟨h, log, hrun, hserial⟩ := Transform.exists_of_passes hpasses
  have hreturns : (circular.transformAll keying).Returns h := ⟨_, log, hrun⟩
  obtain ⟨hnames, hattributes, -⟩ := hkept h hreturns
  exact ⟨h, hreturns, of_decide_eq_true hserial, hnames, hattributes "one" (by decide)⟩

end Generation

end SchemaGraph
