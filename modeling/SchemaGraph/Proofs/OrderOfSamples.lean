import SchemaGraph.Proofs.KeyOrder

/-!
# The order of samples

Folding forgets the order of values in all but one respect: the fields of a shape are in the order in
which keys come up. So samples can be put into another order, with roots still coming up in the same
order, and the graph is the same exactly if keys still come up in the same order at every place
(`SchemaGraph.Samples.build_eq_iff`). Otherwise properties change places, and with them the numbers of
nodes (`SchemaGraph.Samples.not_forall_build_perm`).

That the same keys in the same order give the same graph is said of the lowering itself: it is the same
action on drafts (`SchemaGraph.Build.placeNode_perm`). The converse is read off the graph
(`SchemaGraph.Samples.build_keysAt`).
-/

namespace SchemaGraph

/-! ### Parts of values in another order -/

section Perm

variable {values others : List Json} {texts texts' : List String}
  {members members' : List (String × Json)} {key : String}

theorem textsIn_perm (h : values.Perm others) : (textsIn values).Perm (textsIn others) :=
  h.filterMap _

theorem arraysIn_perm (h : values.Perm others) : (arraysIn values).Perm (arraysIn others) :=
  h.filterMap _

theorem objectsIn_perm (h : values.Perm others) : (objectsIn values).Perm (objectsIn others) :=
  h.filterMap _

theorem valuesUnder_perm (h : members.Perm members') :
    (valuesUnder key members).Perm (valuesUnder key members') :=
  (h.filter _).map _

theorem Access.values_perm (access : Access) (h : values.Perm others) :
    (access.values values).Perm (access.values others) := by
  cases access with
  | items => exact (arraysIn_perm h).flatten
  | under key => exact valuesUnder_perm (objectsIn_perm h).flatten

/-- What is inside of values is smaller. -/
theorem Access.sizeOf_lt_of_mem_values {access : Access} {size : Nat}
    (h : ∀ v ∈ values, sizeOf v < size + 1) : ∀ v ∈ access.values values, sizeOf v < size := by
  intro v hv
  cases access with
  | items =>
    obtain ⟨items, hitems, hmem⟩ := List.mem_flatten.1 hv
    obtain ⟨w, hw, hw'⟩ := List.mem_filterMap.1 hitems
    cases w with
    | array items =>
      obtain rfl := Option.some.inj hw'
      have hsize := h _ hw
      have hlt := List.sizeOf_lt_of_mem hmem
      simp only [Json.array.sizeOf_spec] at hsize
      omega
    | _ => cases hw'
  | under key =>
    obtain ⟨members, hmembers, hmem⟩ := List.mem_flatten.1 (mem_valuesUnder.1 hv)
    obtain ⟨w, hw, hw'⟩ := List.mem_filterMap.1 hmembers
    cases w with
    | object members =>
      obtain rfl := Option.some.inj hw'
      have hsize := h _ hw
      have hlt := List.sizeOf_lt_of_mem hmem
      simp only [Json.object.sizeOf_spec, Prod.mk.sizeOf_spec] at hsize hlt
      omega
    | _ => cases hw'

/-- The kind of strings does not depend on their order. -/
theorem StringShape.kind_ofTexts_perm (h : texts.Perm texts') :
    (ofTexts texts).kind = (ofTexts texts').kind := by
  have hkinds : (ofTexts texts).kinds = (ofTexts texts').kinds := by
    refine SortedSet.ext (fun kind => Nat.lt_irrefl kind.rank) fun kind => ?_
    simp only [mem_kinds_ofTexts, h.mem_iff]
  rw [StringShape.kind, StringShape.kind, hkinds]

/-- Nor do their cases. -/
theorem StringShape.closedLabels?_ofTexts_perm (h : texts.Perm texts') :
    (ofTexts texts).closedLabels? = (ofTexts texts').closedLabels? := by
  have hcases : SortedSet.ofList texts = SortedSet.ofList texts' :=
    SortedSet.ofList_congr String.lt_irrefl fun t => h.mem_iff
  rw [closedLabels?_ofTexts, closedLabels?_ofTexts, kind_ofTexts_perm h, hcases, h.length_eq]

end Perm

/-! ### Lowering -/

namespace Build

variable {values others : List Json}

theorem placeNode_eq (name : String) (s : Shape) : placeNode name s = (do
    let scalars ← scalarNodes s.null s.bool s.integer s.real
    let strings ← stringNodes name s.strings
    let arrays ← arrayNodes name s.array
    let objects ← objectNodes name s.object
    joinMembers name (scalars ++ strings ++ arrays ++ objects)) := by
  cases s
  rw [placeNode]

theorem scalarNodes_perm (h : values.Perm others) :
    scalarNodes (Shape.ofValues values).null (Shape.ofValues values).bool
        (Shape.ofValues values).integer (Shape.ofValues values).real =
      scalarNodes (Shape.ofValues others).null (Shape.ofValues others).bool
        (Shape.ofValues others).integer (Shape.ofValues others).real := by
  rw [@Shape.ofValues_eq values, @Shape.ofValues_eq others, h.any_eq, h.any_eq, h.any_eq, h.any_eq]

theorem stringNodes_perm (name : String) (h : values.Perm others) :
    stringNodes name (Shape.ofValues values).strings =
      stringNodes name (Shape.ofValues others).strings := by
  have htexts := textsIn_perm h
  rw [@Shape.ofValues_eq values, @Shape.ofValues_eq others, htexts.isEmpty_eq]
  dsimp only
  split
  · rfl
  · rw [stringNodes, stringNodes, StringShape.closedLabels?_ofTexts_perm htexts,
      StringShape.kind_ofTexts_perm htexts]

theorem arrayNodes_perm (name : String) (h : values.Perm others)
    (hitems : ∀ name, placeNode name (.ofValues (Access.items.values values)) =
      placeNode name (.ofValues (Access.items.values others))) :
    arrayNodes name (Shape.ofValues values).array =
      arrayNodes name (Shape.ofValues others).array := by
  rw [Shape.array_ofValues, Shape.array_ofValues, (arraysIn_perm h).isEmpty_eq]
  split
  · rfl
  · rw [arrayNodes, arrayNodes]
    exact congrArg (· >>= _) (hitems _)

theorem fieldProperties_cons {seen : Nat} {field : FieldShape} {rest : List FieldShape} :
    fieldProperties seen (field :: rest) = (do
      let type ← placeNode (pascalCase field.key) field.shape
      let properties ← fieldProperties seen rest
      return ⟨field.key, type, field.presentIn < seen⟩ :: properties) := by
  cases field
  rw [fieldProperties]

/-- Fields that are listed by key are lowered alike if their shapes are. -/
theorem fieldProperties_congr {keys : List String} {seen : Nat} {F F' : String → FieldShape}
    (h : ∀ k ∈ keys, (F k).key = (F' k).key ∧ (F k).presentIn = (F' k).presentIn ∧
      ∀ name, placeNode name (F k).shape = placeNode name (F' k).shape) :
    fieldProperties seen (keys.map F) = fieldProperties seen (keys.map F') := by
  induction keys with
  | nil => rfl
  | cons k rest ih =>
    obtain ⟨⟨hkey, hpresent, hshape⟩, hrest⟩ := List.forall_mem_cons.1 h
    rw [List.map_cons, List.map_cons, fieldProperties_cons, fieldProperties_cons, hkey, hpresent,
      hshape, ih hrest]

theorem objectNodes_perm (name : String) (h : values.Perm others)
    (hkeys : keysAt [] values = keysAt [] others)
    (hfields : ∀ key name, placeNode name (.ofValues ((Access.under key).values values)) =
      placeNode name (.ofValues ((Access.under key).values others))) :
    objectNodes name (Shape.ofValues values).object =
      objectNodes name (Shape.ofValues others).object := by
  have hobjects := objectsIn_perm h
  rw [keysAt_nil, keysAt_nil] at hkeys
  rw [Shape.object_ofValues, Shape.object_ofValues, hobjects.isEmpty_eq]
  split
  · rfl
  · rw [objectNodes, objectNodes, hobjects.length_eq, fieldsOf, fieldsOf, hkeys]
    refine congrArg (· >>= _) (fieldProperties_congr fun key _ => ⟨rfl, ?_, hfields key⟩)
    exact (valuesUnder_perm hobjects.flatten).length_eq

/-- **Values in another order are lowered alike** if the keys of their objects are in the same order,
along all paths. The induction is on a bound for the size of the values. -/
theorem placeNode_perm (size : Nat) : ∀ {values others : List Json}, (∀ v ∈ values, sizeOf v < size) →
    values.Perm others → (∀ path, keysAt path values = keysAt path others) →
      ∀ name, placeNode name (.ofValues values) = placeNode name (.ofValues others) := by
  induction size with
  | zero =>
    intro values others hsize hperm _ name
    obtain rfl : values = [] := List.eq_nil_iff_forall_not_mem.2 fun v hv =>
      Nat.not_lt_zero _ (hsize v hv)
    rw [hperm.nil_eq]
  | succ size ih =>
    intro values others hsize hperm hkeys name
    have hinner : ∀ (access : Access) name, placeNode name (.ofValues (access.values values)) =
        placeNode name (.ofValues (access.values others)) := fun access =>
      ih (Access.sizeOf_lt_of_mem_values hsize) (access.values_perm hperm)
        fun path => hkeys (access :: path)
    rw [placeNode_eq, placeNode_eq, scalarNodes_perm hperm, stringNodes_perm name hperm,
      arrayNodes_perm name hperm (hinner .items),
      objectNodes_perm name hperm (hkeys []) fun key => hinner (.under key)]

end Build

/-! ### The graph of samples -/

namespace Samples

variable {samples reordered : List (String × Json)}

/-- What is done for listed shapes depends on what is done for each. -/
theorem forM_map_congr {keys : List String} {place : String → Shape → Build Unit}
    {F F' : String → Shape} (h : ∀ k ∈ keys, place k (F k) = place k (F' k)) :
    (keys.map fun k => (k, F k)).forM (fun e => place e.1 e.2) =
      (keys.map fun k => (k, F' k)).forM fun e => place e.1 e.2 := by
  induction keys with
  | nil => rfl
  | cons k rest ih =>
    obtain ⟨hk, hrest⟩ := List.forall_mem_cons.1 h
    change (place k (F k) >>= fun _ => List.forM _ _) = place k (F' k) >>= fun _ => List.forM _ _
    rw [hk, ih hrest]

/-- Samples in another order have the same graph if the keys of their objects are in the same
order. -/
theorem build_perm (hperm : samples.Perm reordered) (hroots : firstSeen samples = firstSeen reordered)
    (hkeys : ∀ root path,
      keysAt path (valuesUnder root samples) = keysAt path (valuesUnder root reordered))
    (options : Options) : (ofList samples).build options = (ofList reordered).build options := by
  have hplace : ∀ root, placeRoot root (.ofValues (valuesUnder root samples)) =
      placeRoot root (.ofValues (valuesUnder root reordered)) := by
    intro root
    rw [placeRoot, placeRoot]
    exact congrArg (· >>= _) (Build.placeNode_perm (sizeOf (valuesUnder root samples))
      (fun v hv => List.sizeOf_lt_of_mem hv) (valuesUnder_perm hperm) (hkeys root) root)
  have hrun := forM_map_congr fun root (_ : root ∈ firstSeen reordered) => hplace root
  rw [build, build, entries_ofList, entries_ofList, hroots, hrun]

/-- **When the order of samples does not matter.** Samples and the same samples in another order, in
which roots come up in the same order, always have graphs. These are the same, with the same nodes,
roots and attributes, exactly if for every root and along every path the keys of objects come up in
the same order as well. -/
theorem build_eq_iff (hperm : samples.Perm reordered)
    (hroots : firstSeen samples = firstSeen reordered) (options : Options) :
    ∃ g h, (ofList samples).build options = .ok g ∧ (ofList reordered).build options = .ok h ∧
      (g = h ↔ ∀ root path,
        keysAt path (valuesUnder root samples) = keysAt path (valuesUnder root reordered)) := by
  obtain ⟨g, hg, hread⟩ := (build_keysAt samples options).exists_ok fun _ => id
  obtain ⟨h, hh, hread'⟩ := (build_keysAt reordered options).exists_ok fun _ => id
  refine ⟨g, h, hg, hh, fun hsame root path => ?_, fun hkeys => ?_⟩
  · rw [← hread, ← hread', hsame]
  · have hsame := build_perm hperm hroots hkeys options
    rw [hg, hh] at hsame
    exact Except.ok.inj hsame

/-- Two objects of one root, with different keys. -/
def disjoint : List (String × Json) :=
  [("r", .object [("a", .integer 1)]), ("r", .object [("b", .string "x y")])]

/-- They are samples in either order. -/
theorem build_eq_iff_disjoint :
    disjoint.Perm disjoint.reverse ∧ firstSeen disjoint = firstSeen disjoint.reverse ∧
      ∃ g h, (ofList disjoint).build ⟨true⟩ = .ok g ∧
        (ofList disjoint.reverse).build ⟨true⟩ = .ok h ∧ g ≠ h := by
  have hperm : disjoint.Perm disjoint.reverse := (List.reverse_perm _).symm
  have hroots : firstSeen disjoint = firstSeen disjoint.reverse := by decide
  obtain ⟨g, h, hg, hh, hiff⟩ := build_eq_iff hperm hroots ⟨true⟩
  refine ⟨hperm, hroots, g, h, hg, hh, fun hsame => ?_⟩
  have hkeys := hiff.1 hsame "r" []
  simp only [disjoint, valuesUnder, objectsIn, Json.members?, firstSeen, keysAt_nil] at hkeys
  exact absurd hkeys (by decide)

/-- Their graphs begin with the node of the key that comes first. -/
theorem build_disjoint : ∃ g h, (ofList disjoint).build ⟨false⟩ = .ok g ∧
    (ofList disjoint.reverse).build ⟨false⟩ = .ok h ∧
      g.node? 0 = some (.primitive .integer) ∧ h.node? 0 = some (.primitive .string) := by
  have hfirst : ∀ {x : Except Fault Generation} {node : Node},
      (x.toOption.any fun g => decide (g.node? 0 = some node)) = true →
        ∃ g, x = .ok g ∧ g.node? 0 = some node := by
    rintro (f | g) node h
    · cases h
    · exact ⟨g, rfl, of_decide_eq_true h⟩
  obtain ⟨g, hg, hnode⟩ : ∃ g, (ofList disjoint).build ⟨false⟩ = .ok g ∧
      g.node? 0 = some (.primitive .integer) := hfirst (by decide +kernel)
  obtain ⟨h, hh, hnode'⟩ : ∃ h, (ofList disjoint.reverse).build ⟨false⟩ = .ok h ∧
      h.node? 0 = some (.primitive .string) := hfirst (by decide +kernel)
  exact ⟨g, h, hg, hh, hnode, hnode'⟩

/-- **The graph depends on the order of samples.** -/
theorem not_forall_build_perm : ¬∀ (samples reordered : List (String × Json)) (options : Options),
    samples.Perm reordered → firstSeen samples = firstSeen reordered →
      (ofList samples).build options = (ofList reordered).build options := by
  intro hall
  obtain ⟨g, h, hg, hh, hnode, hnode'⟩ := build_disjoint
  have hsame := hall disjoint disjoint.reverse ⟨false⟩ (List.reverse_perm _).symm (by decide)
  rw [hg, hh] at hsame
  rw [Except.ok.inj hsame, hnode'] at hnode
  cases hnode

end Samples

end SchemaGraph
