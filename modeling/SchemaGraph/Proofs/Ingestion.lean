import SchemaGraph.CommandLine.Run
import SchemaGraph.Proofs.Lowering

/-!
# Graphs of samples

The graph of samples is always built, and every sample conforms to the type at its root
(`SchemaGraph.Samples.build_accepts`): the shape of a root covers its samples, and what the shape
covers conforms to its node. It still does after any run of transformations, which meets no fault
and loses no marker, since the graph has no intersections and no foreign attributes to begin with.
-/

namespace SchemaGraph

variable {b c : Draft} {shapes : List (String × Shape)}

/-! ### Roots -/

/-- Placing a root: its node is placed, then the root is bound and given its name. -/
theorem Build.placeRoot_ends {root : String} {shape : Shape} {post : Draft → Ref → Prop}
    (h : Lowers b (placeNode root shape) post) (hslot : ∀ c r, post c r → c.HasSlot r)
    (hroot : b.roots.find? root = none) (hroot' : b.store.roots.find? root = none) :
    Ends (Samples.placeRoot root shape b) (fun _ => False) fun out =>
      ∃ c r roots, b.Gains c ∧ post c r ∧
        out.2 = { c with
          roots := c.roots.insert root r, store := { c.store with roots } } ∧
        ∀ name ≠ root, roots.find? name = c.store.roots.find? name := by
  refine ends_bind h fun r c ⟨hc, hr⟩ => ?_
  rw [bind_eq (addRoot_eq (hslot c r hr).1 (hc.roots ▸ hroot))]
  obtain ⟨roots, hadd, hroots, -⟩ := addRootAttributes_eq
    { c with roots := c.roots.insert root r } (nameAttribute root)
    ((congrArg (·.find? root) hc.rootAttributes).trans hroot')
  rw [hadd]
  exact ⟨c, r, roots, hc, hr, rfl, hroots⟩

namespace Draft

/-- All shapes are placed, under different names. -/
theorem placeRoots_ends {good : Draft → List (String × Shape) → Prop}
    (rest : List (String × Shape)) (hstep : ∀ e ∈ rest, ∀ b shapes, good b shapes →
      e.1 ∉ shapes.map Prod.fst → Ends (Samples.placeRoot e.1 e.2 b) (fun _ => False) fun out =>
        good out.2 (shapes ++ [e])) (h : good b shapes)
    (hnd : ((shapes ++ rest).map Prod.fst).Nodup) :
    Ends ((rest.forM fun (root, shape) => Samples.placeRoot root shape) b) (fun _ => False)
      fun out => good out.2 (shapes ++ rest) := by
  induction rest generalizing b shapes with
  | nil =>
    rw [List.append_nil]
    exact h
  | cons e rest ih =>
    rw [List.append_cons] at hnd ⊢
    have hroot : e.1 ∉ shapes.map Prod.fst := by
      rw [List.map_append, List.map_append, List.append_assoc] at hnd
      intro hmem
      exact (List.nodup_append.1 hnd).2.2 e.1 hmem e.1 (by simp) rfl
    exact Build.ends_bind (hstep e (by simp) b shapes h hroot) fun _ c hc =>
      ih (fun e he => hstep e (by simp [he])) hc hnd

/-- The roots have slots, and what each of the shapes covers conforms to the root of its name. -/
structure Rooted (b : Draft) (shapes : List (String × Shape)) : Prop where
  plain : b.Plain
  slots : ∀ e ∈ b.roots.entries, b.HasSlot e.2
  names : b.roots.keys = shapes.map Prod.fst
  attributeNames : ∀ name ∉ b.roots.keys, b.store.roots.find? name = none
  accepts : ∀ e ∈ shapes, ∃ r, b.roots.find? e.1 = some r ∧ ∀ v, e.2.Covers v → Conforms b.node? v r

/-- Binding roots changes no node. -/
theorem Plain.bindRoots {roots : OrderedMap String Ref} {rootAttributes : OrderedMap String Attributes}
    (h : b.Plain) :
    ({ b with roots, store := { b.store with roots := rootAttributes } } : Draft).Plain :=
  ⟨h.mapping, h.alphabetize, h.filled, h.children, h.noIntersections, h.indexed, h.among⟩

/-- A root of a new name is not there yet, nor are attributes of it. -/
theorem Rooted.find?_eq_none {root : String} (h : b.Rooted shapes)
    (hroot : root ∉ shapes.map Prod.fst) :
    b.roots.find? root = none ∧ b.store.roots.find? root = none := by
  rw [← h.names] at hroot
  exact ⟨OrderedMap.find?_eq_none_iff.2 hroot, h.attributeNames root hroot⟩

/-- Placing one more root. -/
theorem Rooted.placeRoot_ends {root : String} {shape : Shape} (h : b.Rooted shapes)
    (hroot : root ∉ shapes.map Prod.fst) :
    Ends (Samples.placeRoot root shape b) (fun _ => False) fun out =>
      out.2.Rooted (shapes ++ [(root, shape)]) := by
  obtain ⟨hfree, hfree'⟩ := h.find?_eq_none hroot
  refine (Build.placeRoot_ends (Build.lowers_placeNode root shape h.plain)
    (fun c r hr => hr.hasSlot_of_singleton) hfree hfree').mono ?_
  rintro ⟨-, _⟩ ⟨c, r, roots, hc, hr, rfl, hroots⟩
  have hkeys : (c.roots.insert root r).keys = b.roots.keys ++ [root] := by
    rw [hc.roots, OrderedMap.keys_insert, if_neg (OrderedMap.find?_eq_none_iff.1 hfree)]
  refine ⟨hc.plain.bindRoots, fun e he => ?_, ?_, fun name hname => ?_, fun e he => ?_⟩
  · rcases OrderedMap.eq_or_of_find?_insert (OrderedMap.find?_eq_some_iff.2 he) with hold | ⟨-, heq⟩
    · rw [hc.roots, OrderedMap.find?_eq_some_iff] at hold
      exact hc.extension.hasSlot (h.slots e hold)
    · exact heq ▸ hr.hasSlot_of_singleton
  · rw [List.map_append, ← h.names]
    exact hkeys
  · rw [hkeys, List.mem_append, not_or, List.mem_singleton] at hname
    change roots.find? name = none
    rw [hroots name hname.2, ← h.attributeNames name hname.1, ← hc.rootAttributes]
  · rcases List.mem_append.1 he with he | he
    · obtain ⟨s, hs, hconforms⟩ := h.accepts e he
      refine ⟨s, OrderedMap.find?_insert_of_find? (hc.roots ▸ hfree) (hc.roots ▸ hs), fun v hv => ?_⟩
      exact hc.extension.conforms (hconforms v hv)
    · obtain rfl := List.mem_singleton.1 he
      refine ⟨r, ?_, fun v hv => hr.conforms_of_singleton hv⟩
      change (c.roots.insert root r).find? root = some r
      rw [OrderedMap.find?_insert, if_pos rfl]

/-- A draft in which nothing is placed. -/
theorem rooted_initial (options : Options) : (initial options).Rooted [] where
  plain := plain_initial
  slots := nofun
  names := rfl
  attributeNames _ _ := rfl
  accepts := nofun

/-- The generation has what the draft has. -/
structure BecomesGeneration (b : Draft) (g : Generation) : Prop where
  options : g.options = b.options
  node? : ∀ index, g.node? index = b.node? index
  store : g.store = b.store
  roots : g.roots = b.roots

/-- A draft whose roots are placed can be frozen. -/
theorem Rooted.ofDraft_ends (h : b.Rooted shapes) :
    Ends (Generation.ofDraft b) (fun _ => False) b.BecomesGeneration := by
  have hslots : ∀ r ∈ b.roots.values, b.HasSlot r := by
    intro r hr
    obtain ⟨e, he, rfl⟩ := List.mem_map.1 hr
    exact h.slots e he
  refine (Generation.ofDraft_ends h.plain.filled h.plain.children hslots).mono ?_
  rintro g ⟨hoptions, hnodes, hstore, hroots⟩
  refine ⟨hoptions, fun index => ?_, hstore, hroots⟩
  rw [Draft.node?, hnodes, Array.getElem?_map, Generation.node?]
  cases g.nodes[index]? <;> rfl

/-- The generation of a plain draft lets in what its roots do. -/
theorem Rooted.fits {g : Generation} {samples : List (String × Json)} (h : b.Rooted shapes)
    (hg : b.BecomesGeneration g)
    (hsamples : ∀ e ∈ samples, ∃ shape, (e.1, shape) ∈ shapes ∧ shape.Covers e.2) :
    g.Fits samples := by
  refine ⟨hg.store ▸ h.plain.among, fun r n _ hn => ?_, fun e he => ?_⟩
  · rw [hg.node?] at hn
    exact h.plain.noIntersections (holds_of_node? hn)
  · obtain ⟨shape, hshape, hcovers⟩ := hsamples e he
    obtain ⟨r, hr, hconforms⟩ := h.accepts _ hshape
    exact ⟨r, hg.roots ▸ hr, (hconforms e.2 hcovers).mono fun hn => (hg.node? _).trans hn⟩

end Draft

/-! ### The samples of a job -/

/-- Every sample that a job finds in a text is a value, so nothing more need be asked of samples. -/
theorem Job.isValue_of_sample {j : Job} {path text : String} {failure : JobFailure}
    {document v : Json} (h : (failure, some document) ∈ j.documents path text)
    (hv : j.sample? document = some v) : v.IsValue := by
  have hdocument : document.IsValue := by
    unfold documents at h
    split at h
    · obtain ⟨line, -, hline⟩ := List.mem_map.1 h
      exact Json.isValue_of_parse (Prod.mk.inj hline).2
    · exact Json.isValue_of_parse (Prod.mk.inj (List.mem_singleton.1 h)).2.symm
  unfold sample? at hv
  split at hv
  · exact Option.some.inj hv ▸ hdocument
  · exact hdocument.of_pointer hv

/-! ### Inference -/

namespace Inference

variable {α β : Type} {good : α → Prop}

/-- The inference meets no fault and loses no marker, and its result is among `good`, whatever was
logged before. -/
def Run.Gives (r : Run α) (good : α → Prop) : Prop :=
  ∀ log, Ends (r.run.run log) (fun _ => False) fun out => ∃ a, out.1 = .ok a ∧ good a

theorem Run.Gives.bind {good' : β → Prop} {r : Run α} {k : α → Run β} (h : r.Gives good)
    (hk : ∀ a, good a → (k a).Gives good') : (r >>= k).Gives good' := by
  refine fun log => Ends.bind (h log) ?_
  rintro ⟨_, log'⟩ ⟨a, rfl, ha⟩
  exact hk a ha log'

theorem gives_pure {a : α} (h : good a) : Run.Gives (pure a) good := fun _ => ⟨a, rfl, h⟩

theorem gives_lift {x : Except Fault α} (h : Ends x (fun _ => False) good) :
    Run.Gives (ExceptT.lift (StateT.lift x)) good := by
  intro log
  cases x with
  | error f => exact h
  | ok a => exact ⟨a, rfl, h⟩

theorem Stage.gives {stage : Stage} {t : Transform α}
    (h : t.Ends (fun _ => False) (fun _ => False) good) : (stage.run t).Gives good := by
  refine fun log => Ends.bind (h log) ?_
  rintro ⟨_ | a, log'⟩ ha
  · exact ha.elim
  · exact ⟨a, rfl, ha⟩

end Inference

/-! ### Soundness -/

namespace Samples

open Generation

variable {samples : List (String × Json)}

/-- The graph of samples is there, and fits them. -/
theorem build_ends (h : ∀ e ∈ samples, e.2.IsValue) (options : Options) :
    Ends ((ofList samples).build options) (fun _ => False) fun g => g.Fits samples := by
  have hcovers := covers_ofList h
  have hplaced := Draft.placeRoots_ends (ofList samples).roots.entries
    (fun _ _ _ _ h hroot => h.placeRoot_ends hroot) (Draft.rooted_initial options)
    (ofList samples).roots.nodup
  refine Ends.bind hplaced fun out hout => hout.ofDraft_ends.mono fun g hg => ?_
  refine hout.fits hg fun e he => ?_
  obtain ⟨shape, hshape, hcovered⟩ := hcovers.covers e he
  exact ⟨shape, OrderedMap.find?_eq_some_iff.1 hshape, hcovered⟩

/-- An inference goes through its stages: `started` is what is known when the graph is built, and
`ready` when strings are plain if they have to be. -/
theorem infer_gives {s : Samples} {settings : Inference.Settings} {started ready good : Generation → Prop}
    (hbuild : Ends (s.build settings.options) (fun _ => False) started)
    (hannounce : ∀ g, started g → started g.announce)
    (hplain : settings.plainStrings = true → ∀ g, started g →
      (g.plainStrings settings.alphabetize).Ends (fun _ => False) (fun _ => False) ready)
    (hkept : settings.plainStrings = false → ∀ g, started g → ready g)
    (hrest : ∀ g, ready g → (g.settle settings.alphabetize false).Ends (fun _ => False)
      (fun _ => False) fun settled => (settled.collect settings.alphabetize false).Ends
        (fun _ => False) (fun _ => False) fun out => ∃ new, out = .derived new ∧ good new) :
    (s.infer settings).Gives good := by
  -- what is done last, after the strings were made plain or not
  have hlast : ∀ g : Generation, ready g → Inference.Run.Gives (do
      let g ← Inference.Stage.settling.run (g.settle settings.alphabetize false)
      let outcome ← Inference.Stage.collecting.run (g.collect settings.alphabetize false)
      return outcome.after g) good := by
    intro g hg
    refine (Inference.Stage.gives (hrest g hg)).bind fun settled hsettled => ?_
    refine (Inference.Stage.gives hsettled).bind ?_
    rintro _ ⟨new, rfl, hnew⟩
    exact Inference.gives_pure hnew
  refine (Inference.gives_lift hbuild).bind fun built hbuilt => ?_
  have hannounced : started (if settings.announce then built.announce else built) := by
    split
    · exact hannounce built hbuilt
    · exact hbuilt
  dsimp only
  split
  · next htrue => exact (Inference.Stage.gives (hplain htrue _ hannounced)).bind hlast
  · next hfalse => exact hlast _ (hkept (Bool.eq_false_iff.2 hfalse) _ hannounced)

/-- **What is inferred from samples accepts all of them**, and there always is something. -/
theorem infer_accepts (h : ∀ e ∈ samples, e.2.IsValue) (settings : Inference.Settings) :
    ((ofList samples).infer settings).Gives fun g => ∀ e ∈ samples, g.AcceptsAt e.1 e.2 := by
  refine infer_gives (build_ends h settings.options) (fun _ => fits_announce)
    (fun _ g hg => (Pass.plainStrings "plain strings" settings.alphabetize false).run_ends hg)
    (fun _ _ hg => hg) fun g hg => hg.settle_ends.mono fun settled hsettled => ?_
  refine hsettled.collect_ends.mono ?_
  rintro _ ⟨new, rfl, hnew⟩
  exact ⟨new, rfl, hnew.accepts⟩

/-- **Ingestion is sound.** The graph of samples is always built, and every sample conforms to the
type at its root. Whatever passes are run over the graph after that – making strings plain, rebuilding
until nothing shrinks, collecting – meet no fault, lose no marker, and leave every sample conforming. -/
theorem build_accepts (h : ∀ e ∈ samples, e.2.IsValue) (options : Options) :
    ∃ g, (ofList samples).build options = .ok g ∧ (∀ e ∈ samples, g.AcceptsAt e.1 e.2) ∧
      ∀ passes : List Pass, (g.transform passes).Ends (fun _ => False) (fun _ => False)
        fun new => ∀ e ∈ samples, new.AcceptsAt e.1 e.2 := by
  have hends := build_ends h options
  cases hbuilt : (ofList samples).build options with
  | error f => exact (hends.of_eq_error hbuilt).elim
  | ok g =>
    have hfits := hends.of_eq_ok hbuilt
    exact ⟨g, rfl, hfits.accepts, fun passes =>
      (transform_ends passes hfits).mono fun _ hnew => hnew.accepts⟩

/-- Two documents of one root, which disagree about a key and repeat another, and one of a second
root. -/
def mixed : List (String × Json) :=
  [("order", .object [("id", .integer 7), ("tags", .array []), ("at", .string "12:30:00")]),
    ("order", .object [("id", .real "7.5"), ("tags", .array [.string "a", .null]), ("id", .null)]),
    ("flag", .bool true)]

/-- The mixed documents are ingested. -/
theorem build_accepts_mixed :
    ∃ g, (ofList (mixed.map fun e => (e.1, e.2.normal))).build ⟨true⟩ = .ok g ∧
      (∀ e ∈ mixed, g.AcceptsAt e.1 e.2.normal) ∧
        (g.transform [.plainStrings "plain" true false, .settle false true, .collect true false]).Ends
          (fun _ => False) (fun _ => False) fun new => ∀ e ∈ mixed, new.AcceptsAt e.1 e.2.normal := by
  have hvalues : ∀ e ∈ mixed.map fun e => (e.1, e.2.normal), e.2.IsValue := by
    intro e he
    obtain ⟨document, -, rfl⟩ := List.mem_map.1 he
    exact Json.isValue_normal document.2
  obtain ⟨g, hg, haccepts, hpasses⟩ := build_accepts hvalues ⟨true⟩
  have hback : ∀ {new : Generation},
      (∀ e ∈ mixed.map fun e => (e.1, e.2.normal), new.AcceptsAt e.1 e.2) →
        ∀ e ∈ mixed, new.AcceptsAt e.1 e.2.normal := fun h e he => h _ (List.mem_map_of_mem he)
  exact ⟨g, hg, hback haccepts, (hpasses _).mono fun _ => hback⟩

end Samples

end SchemaGraph
