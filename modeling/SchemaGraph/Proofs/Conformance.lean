import SchemaGraph.Proofs.FixedPoint
import SchemaGraph.Proofs.Images
import SchemaGraph.Sample.Inference

/-!
# Values of the type at a node

What a schema graph says about data: which JSON values **conform** to a node
(`SchemaGraph.Conforms`). It is a relation between values and references, because the nodes may
form a cycle; a value is finite, so each derivation is.

Transformations only ever let more values in. An image of a graph keeps names, cases and links, so
whatever conforms to a node conforms to its image (`SchemaGraph.Generation.IsImage.conforms`), as
long as kinds go to kinds that accept no less (`SchemaGraph.StringMapping.Widens`). Since a graph
without intersections is transformed to an image of itself, every run of transformations on it
ends well, and what its roots accepted they still accept
(`SchemaGraph.Generation.transform_ends`).
-/

namespace SchemaGraph

/-! ### Kinds -/

/-- Whether a value is of the kind. A formatted kind has the strings that are classified as it. -/
def PrimitiveKind.accepts (kind : PrimitiveKind) : Json → Bool
  | .null => kind = any || kind = null
  | .bool _ => kind = any || kind = bool
  | .integer _ => kind = any || kind = integer || kind = double
  | .real _ => kind = any || kind = double
  | .string text =>
    kind = any || kind = string || (kind.isFormatted && Literal.classify text = kind)
  | .array _ | .object _ => kind = any

/-- Every kind goes to one that accepts all that it does. -/
def StringMapping.Widens (m : StringMapping) : Prop :=
  ∀ (kind : PrimitiveKind) (value : Json), kind.accepts value → (m.apply kind).accepts value

namespace StringMapping

theorem widens_preserving : preserving.Widens := fun kind _ h => (apply_preserving kind).symm ▸ h

/-- Only strings are of a formatted kind. -/
theorem widens_plain : plain.Widens := by
  intro kind value h
  by_cases hformatted : kind.isFormatted = true
  · have hstring : plain.apply kind = .string := if_pos hformatted
    rw [hstring]
    cases kind <;> simp [PrimitiveKind.isFormatted] at hformatted <;>
      cases value <;> simp_all [PrimitiveKind.accepts]
  · have hsame : plain.apply kind = kind := if_neg hformatted
    rwa [hsame]

end StringMapping

/-! ### Conformance -/

/-- The value conforms to the node that the reference leads to, where `nodes` gives the node at an
index. -/
inductive Conforms (nodes : Nat → Option Node) : Json → Ref → Prop
  | primitive {value : Json} {r : Ref} {kind : PrimitiveKind}
      (hn : nodes r.index = some (.primitive kind)) (h : kind.accepts value) : Conforms nodes value r
  | array {values : List Json} {r items : Ref} (hn : nodes r.index = some (.array items))
      (h : ∀ v ∈ values, Conforms nodes v items) : Conforms nodes (.array values) r
  | map {members : List (String × Json)} {r values : Ref} (hn : nodes r.index = some (.map values))
      (h : ∀ m ∈ members, Conforms nodes m.2 values) : Conforms nodes (.object members) r
  /-- Every key is declared, every property that is not optional is there, and the values conform
  to the types of their properties. -/
  | object {members : List (String × Json)} {r : Ref} {properties : List Property}
      (hn : nodes r.index = some (.object properties))
      (declared : ∀ m ∈ members, m.1 ∈ properties.map Property.name)
      (present : ∀ p ∈ properties, p.optional = false → p.name ∈ members.map Prod.fst)
      (values : ∀ p ∈ properties, ∀ m ∈ members, m.1 = p.name → Conforms nodes m.2 p.type) :
      Conforms nodes (.object members) r
  | enum {text : String} {r : Ref} {cases : List String} (hn : nodes r.index = some (.enum cases))
      (h : text ∈ cases) : Conforms nodes (.string text) r
  | union {value : Json} {r c : Ref} {members : SortedSet Ref}
      (hn : nodes r.index = some (.union members)) (hc : c ∈ members.toList)
      (h : Conforms nodes value c) : Conforms nodes value r
  | intersection {value : Json} {r : Ref} {members : SortedSet Ref}
      (hn : nodes r.index = some (.intersection members))
      (h : ∀ c ∈ members.toList, Conforms nodes value c) : Conforms nodes value r

/-- Nodes that are added, or filled in, take no value away. -/
theorem Conforms.mono {nodes nodes' : Nat → Option Node} {value : Json} {r : Ref}
    (h : Conforms nodes value r) (hnodes : ∀ {i n}, nodes i = some n → nodes' i = some n) :
    Conforms nodes' value r := by
  induction h with
  | primitive hn h => exact .primitive (hnodes hn) h
  | array hn _ ih => exact .array (hnodes hn) ih
  | map hn _ ih => exact .map (hnodes hn) ih
  | object hn declared present _ ih => exact .object (hnodes hn) declared present ih
  | enum hn h => exact .enum (hnodes hn) h
  | union hn hc _ ih => exact .union (hnodes hn) hc ih
  | intersection hn _ ih => exact .intersection (hnodes hn) ih

/-- Canonical form leaves a class its properties, up to their order. -/
theorem Node.exists_canonical_object (ps : List Property) (f : Ref → Ref) (m : StringMapping)
    (a : Bool) : ∃ qs, ((object ps).mapChildren f).canonical m a = object qs ∧
      ∀ q, q ∈ qs ↔ ∃ p ∈ ps, { p with type := f p.type } = q := by
  cases a with
  | false => exact ⟨_, rfl, fun q => List.mem_map⟩
  | true =>
    refine ⟨_, rfl, fun q => ?_⟩
    rw [List.mem_mergeSort, List.mem_map]

namespace Generation

variable {g new : Generation} {φ : Ref → Ref} {r : Ref} {m : StringMapping} {a : Bool} {value : Json}

/-- **What conforms to a node conforms to its image.** -/
theorem IsImage.conforms (h : g.IsImage new φ m a) (hm : m.Widens) (hr : g.Reaches r)
    (hv : Conforms g.node? value r) : Conforms new.node? value (φ r) := by
  induction hv with
  | primitive hn hk => exact .primitive (h.node hr hn) (hm _ _ hk)
  | array hn _ ih =>
    exact .array (h.node hr hn) fun v hv => ih v hv (hr.child hn (by simp [Node.children]))
  | map hn _ ih =>
    exact .map (h.node hr hn) fun e he => ih e he (hr.child hn (by simp [Node.children]))
  | @object members r ps hn declared present _ ih =>
    obtain ⟨qs, hqs, hmem⟩ := Node.exists_canonical_object ps φ m a
    refine .object ((h.node hr hn).trans (congrArg some hqs)) (fun e he => ?_) (fun q hq => ?_)
      fun q hq => ?_
    · obtain ⟨p, hp, hname⟩ := List.mem_map.1 (declared e he)
      exact List.mem_map.2 ⟨_, (hmem _).2 ⟨p, hp, rfl⟩, hname⟩
    · obtain ⟨p, hp, rfl⟩ := (hmem q).1 hq
      exact present p hp
    · obtain ⟨p, hp, rfl⟩ := (hmem q).1 hq
      exact fun e he hname =>
        ih p hp e he hname (hr.child hn (List.mem_map_of_mem (f := Property.type) hp))
  | enum hn hcase => exact .enum (h.node hr hn) (List.mem_eraseDups.2 hcase)
  | union hn hc _ ih =>
    refine .union (h.node hr hn) ?_ (ih (hr.child hn hc))
    exact SortedSet.mem_toList_ofList.2 (List.mem_map_of_mem hc)
  | intersection hn _ ih =>
    refine .intersection (h.node hr hn) fun c hc => ?_
    obtain ⟨b, hb, rfl⟩ := List.mem_map.1 (SortedSet.mem_toList_ofList.1 hc)
    exact ih b hb (hr.child hn hb)

/-- The value conforms to the type at the root. -/
def AcceptsAt (g : Generation) (root : String) (value : Json) : Prop :=
  ∃ r, g.roots.find? root = some r ∧ Conforms g.node? value r

theorem IsImage.acceptsAt {root : String} (h : g.IsImage new φ m a) (hm : m.Widens)
    (hv : g.AcceptsAt root value) : new.AcceptsAt root value := by
  obtain ⟨r, hroot, hv⟩ := hv
  have hmem : (root, r) ∈ g.roots.entries := OrderedMap.find?_eq_some_iff.1 hroot
  refine ⟨φ r, OrderedMap.find?_eq_some_iff.2 ?_, h.conforms hm (.root hmem) hv⟩
  rw [h.roots]
  exact List.mem_map_of_mem (f := fun e : String × Ref => (e.1, φ e.2)) hmem

/-! ### Runs of transformations -/

/-- A transformation of a whole graph. -/
inductive Pass
  /-- Rebuild once, and make every formatted string a plain one. -/
  | plainStrings (title : String) (alphabetize announce : Bool)
  /-- Rebuild until nothing shrinks. -/
  | settle (alphabetize announce : Bool)
  /-- Leave unreachable nodes behind. -/
  | collect (alphabetize announce : Bool)

/-- The generation after a pass. -/
def Pass.run (g : Generation) : Pass → Transform Generation
  | plainStrings title alphabetize announce => do
    return (← g.replace ⟨title, .plain, alphabetize, announce⟩ [] true).after g
  | settle alphabetize announce => g.settle alphabetize announce
  | collect alphabetize announce => return (← g.collect alphabetize announce).after g

/-- The generation after passes, one after the other. -/
def transform (g : Generation) (passes : List Pass) : Transform Generation :=
  passes.foldlM Pass.run g

/-- The graph has no intersections and no foreign attributes, and its roots accept the samples. -/
structure Fits (g : Generation) (samples : List (String × Json)) : Prop where
  among : g.store.Among OwnKind
  noIntersections : g.NoIntersections
  accepts : ∀ e ∈ samples, g.AcceptsAt e.1 e.2

variable {samples : List (String × Json)} {alphabetize announce : Bool}

/-- A rebuilt graph fits what its source did. -/
theorem Fits.rebuilds {settings : Settings} (h : g.Fits samples) (hm : settings.mapping.Widens)
    (hnew : g.Rebuilds settings new) : new.Fits samples := by
  obtain ⟨φ, hφ⟩ := hnew.exists_isImage h.noIntersections
  exact ⟨hnew.among h.among, hφ.noIntersections h.noIntersections,
    fun e he => hφ.acceptsAt hm (h.accepts e he)⟩

/-- Whether a graph prints itself says nothing about values. -/
theorem fits_announce (h : g.Fits samples) : g.announce.Fits samples :=
  ⟨h.among, fun r n hr hn => h.noIntersections r n (reaches_announced_iff.1 hr) hn, h.accepts⟩

/-- One rebuilding of a graph without foreign attributes loses nothing. -/
theorem Fits.replace_ends {settings : Settings} (h : g.Fits samples) :
    (g.replace settings [] true).Ends (fun _ => False) (fun _ => False)
      fun out => ∃ new, out = .derived new ∧ g.Rebuilds settings new :=
  (replace_ends_of_noIntersections oneType_ownKind h.among h.noIntersections).mono_lost
    fun _ => not_mayLoseMarkers_ownKind

theorem Fits.settle_ends (h : g.Fits samples) :
    (g.settle alphabetize announce).Ends (fun _ => False) (fun _ => False)
      fun new => new.Fits samples := by
  have hstep : ∀ last : Generation, last.Fits samples →
      (last.rebuildOnce alphabetize announce).Ends (fun _ => False) (fun _ => False) fun new =>
        new.Fits samples ∧ last.Rebuilds (fixedPoint alphabetize announce) new := fun last hlast =>
    (rebuildOnce_ends_of_replace hlast.replace_ends).mono fun new hnew =>
      ⟨hlast.rebuilds StringMapping.widens_preserving hnew, hnew⟩
  exact (Generation.settle_ends hstep h).mono fun _ hnew => hnew.1

theorem Fits.collect_ends (h : g.Fits samples) :
    (g.collect alphabetize announce).Ends (fun _ => False) (fun _ => False)
      fun out => ∃ new, out = .derived new ∧ new.Fits samples := by
  refine (((Generation.collect_ends h.among).mono_bad fun _ hnot =>
    hnot oneType_ownKind).mono_lost fun _ => not_mayLoseMarkers_ownKind).mono ?_
  rintro out ⟨w, new, rfl, hnew⟩
  have hmerges := merges_of_direct hnew (not_forwarded_of_substitute hnew.finished)
  rw [stays_empty.target] at hmerges
  have himage := hmerges.toCondenses.isImage h.noIntersections
  exact ⟨new, rfl, hmerges.among h.among, himage.noIntersections h.noIntersections,
    fun e he => himage.acceptsAt StringMapping.widens_preserving (h.accepts e he)⟩

/-- **A pass over a graph that fits the samples ends with one that does.** -/
theorem Pass.run_ends (pass : Pass) (h : g.Fits samples) :
    (pass.run g).Ends (fun _ => False) (fun _ => False) fun new => new.Fits samples := by
  cases pass with
  | plainStrings title alphabetize announce =>
    refine h.replace_ends.bind ?_
    rintro out ⟨new, rfl, hnew⟩
    exact Transform.ends_pure (h.rebuilds StringMapping.widens_plain hnew)
  | settle alphabetize announce => exact h.settle_ends
  | collect alphabetize announce =>
    refine h.collect_ends.bind ?_
    rintro out ⟨new, rfl, hnew⟩
    exact Transform.ends_pure hnew

/-- **So do passes one after the other.** -/
theorem transform_ends (passes : List Pass) (h : g.Fits samples) :
    (g.transform passes).Ends (fun _ => False) (fun _ => False) fun new => new.Fits samples := by
  rw [transform]
  induction passes generalizing g with
  | nil => exact Transform.ends_pure h
  | cons pass rest ih =>
    rw [List.foldlM_cons]
    exact (pass.run_ends h).bind fun _ hnew => ih hnew

end Generation

end SchemaGraph
