import SchemaGraph.Proofs.KeyOrder

/-!
# Shapes, place by place

A shape is one fold over values, and that fold runs others inside, for the items of arrays and for what
objects have under their keys. What it comes to is said of each place apart: at the end of every path
it describes the values that there are (`SchemaGraph.Shape.Describes`), whatever was seen between
them and elsewhere.

The counters are numbers of objects, since no object counts twice for a key: its keys are distinct, as
they are in every value (`SchemaGraph.Json.IsValue`), and that goes for values inside of values
(`SchemaGraph.isValue_of_mem_valuesAt`). So a key is counted less often than there are objects iff one
of them lacks it (`SchemaGraph.length_valuesUnder_flatten_lt_iff`), and by this the properties are
optional in the graph of samples.
-/

namespace SchemaGraph

/-! ### Values inside of values -/

section Values

variable {values : List Json}

/-- What is read off values is there iff the value is from which it is read off. -/
theorem mem_filterMap_iff_mem {α : Type} {project : Json → Option α} {make : α → Json} {a : α}
    (hproject : ∀ v, project v = some a ↔ v = make a) :
    a ∈ values.filterMap project ↔ make a ∈ values := by
  rw [List.mem_filterMap]
  refine ⟨fun ⟨v, hv, ha⟩ => ?_, fun h => ⟨_, h, (hproject _).2 rfl⟩⟩
  obtain rfl := (hproject v).1 ha
  exact hv

theorem mem_textsIn {text : String} : text ∈ textsIn values ↔ .string text ∈ values :=
  mem_filterMap_iff_mem fun v => by cases v <;> simp [Json.text?]

theorem mem_arraysIn {items : List Json} : items ∈ arraysIn values ↔ .array items ∈ values :=
  mem_filterMap_iff_mem fun v => by cases v <;> simp [Json.items?]

theorem mem_objectsIn {members : List (String × Json)} :
    members ∈ objectsIn values ↔ .object members ∈ values :=
  mem_filterMap_iff_mem fun v => by cases v <;> simp [Json.members?]

variable (hvalues : ∀ v ∈ values, v.IsValue)

include hvalues

theorem nodup_keys_of_mem_objectsIn : ∀ members ∈ objectsIn values, (members.map Prod.fst).Nodup := by
  intro members hmembers
  cases hvalues _ (mem_objectsIn.1 hmembers) with
  | object hkeys _ => exact hkeys

/-- What values have inside are values. -/
theorem isValue_of_mem_values (access : Access) : ∀ v ∈ access.values values, v.IsValue := by
  intro v hv
  cases access with
  | items =>
    obtain ⟨items, hitems, hv⟩ := List.mem_flatten.1 hv
    cases hvalues _ (mem_arraysIn.1 hitems) with
    | array h => exact h v hv
  | under key =>
    obtain ⟨members, hmembers, hv⟩ := List.mem_flatten.1 (mem_valuesUnder.1 hv)
    cases hvalues _ (mem_objectsIn.1 hmembers) with
    | object _ h => exact h _ hv

theorem isValue_of_mem_valuesAt (path : List Access) : ∀ v ∈ valuesAt path values, v.IsValue := by
  induction path generalizing values with
  | nil => exact hvalues
  | cons access path ih => exact ih (isValue_of_mem_values hvalues access)

end Values

/-! ### Counting the objects with a key -/

section Counting

variable {key : String} {members : List (String × Json)} {objects : List (List (String × Json))}

/-- An object has one value at most under a key. -/
theorem length_valuesUnder (hkeys : (members.map Prod.fst).Nodup) :
    (valuesUnder key members).length = if key ∈ members.map Prod.fst then 1 else 0 := by
  rw [← hkeys.count, List.count, List.countP_map, valuesUnder, List.length_map,
    List.countP_eq_length_filter]
  exact congrArg (fun p => (members.filter p).length) (funext fun m => (beq_eq_decide m.1 key).symm)

variable (hkeys : ∀ members ∈ objects, (members.map Prod.fst).Nodup)

include hkeys

/-- A key comes up once in each object that has it. -/
theorem length_valuesUnder_flatten : (valuesUnder key objects.flatten).length =
    objects.countP fun members => key ∈ members.map Prod.fst := by
  induction objects with
  | nil => rfl
  | cons members rest ih =>
    obtain ⟨hmembers, hrest⟩ := List.forall_mem_cons.1 hkeys
    have hsplit : valuesUnder key (members :: rest).flatten =
        valuesUnder key members ++ valuesUnder key rest.flatten := by
      rw [List.flatten_cons, valuesUnder, List.filter_append, List.map_append]
      rfl
    rw [hsplit, List.length_append, length_valuesUnder hmembers, ih hrest, List.countP_cons, Nat.add_comm]
    simp only [decide_eq_true_eq]

/-- A key comes up less often than there are objects iff one of them lacks it. -/
theorem length_valuesUnder_flatten_lt_iff :
    (valuesUnder key objects.flatten).length < objects.length ↔
      ∃ members ∈ objects, key ∉ members.map Prod.fst := by
  rw [length_valuesUnder_flatten hkeys, List.countP_le_length.lt_iff_ne, Ne, List.countP_eq_length]
  simp only [decide_eq_true_eq, not_forall, exists_prop]

end Counting

/-! ### What a shape says of values -/

/-- How many arrays there were, and what their items are like, one array after the other. -/
structure ArrayShape.Describes (a : ArrayShape) (arrays : List (List Json)) : Prop where
  samples : a.samples = arrays.length
  items : a.items = .ofValues arrays.flatten

/-- How many objects there were, which keys they have, and for each key how many of them have it and
what is under it. -/
structure ObjectShape.Describes (o : ObjectShape) (objects : List (List (String × Json))) : Prop where
  seen : o.seen = objects.length
  /-- The keys of any of them, in the order in which they are first seen. -/
  keys : o.fields.map FieldShape.key = firstSeen objects.flatten
  /-- No key comes twice. -/
  nodup : (o.fields.map FieldShape.key).Nodup
  presentIn : ∀ f ∈ o.fields,
    f.presentIn = objects.countP fun members => f.key ∈ members.map Prod.fst
  bounds : ∀ f ∈ o.fields, 1 ≤ f.presentIn ∧ f.presentIn ≤ o.seen
  shape : ∀ f ∈ o.fields, f.shape = .ofValues (valuesUnder f.key objects.flatten)

/-- The shape says which sorts of value there are, and describes the strings, arrays and objects among
them. It has a part for these only if there are such values. -/
structure Shape.Describes (s : Shape) (values : List Json) : Prop where
  null : s.null = true ↔ .null ∈ values
  bool : s.bool = true ↔ ∃ b, .bool b ∈ values
  integer : s.integer = true ↔ ∃ n, .integer n ∈ values
  real : s.real = true ↔ ∃ literal, .real literal ∈ values
  no_strings : s.strings = none ↔ ∀ text, .string text ∉ values
  no_array : s.array = none ↔ ∀ items, .array items ∉ values
  no_object : s.object = none ↔ ∀ members, .object members ∉ values
  strings : ∀ texts, s.strings = some texts → texts = .ofTexts (textsIn values)
  array : ∀ a, s.array = some a → a.Describes (arraysIn values)
  object : ∀ o, s.object = some o → o.Describes (objectsIn values)

/-- The fields of objects describe them. -/
theorem ObjectShape.describes_fieldsOf {objects : List (List (String × Json))}
    (hkeys : ∀ members ∈ objects, (members.map Prod.fst).Nodup) :
    (ObjectShape.mk objects.length (fieldsOf objects.flatten)).Describes objects := by
  have hnames : (fieldsOf objects.flatten).map FieldShape.key = firstSeen objects.flatten := by
    rw [fieldsOf, List.map_map]
    exact List.map_id _
  refine ⟨rfl, hnames, hnames ▸ nodup_firstSeen, fun f hf => ?_, fun f hf => ?_, fun f hf => ?_⟩ <;>
    obtain ⟨key, hkey, rfl⟩ := List.mem_map.1 hf
  · exact length_valuesUnder_flatten hkeys
  · refine ⟨List.length_pos_iff.2 fun hnone => valuesUnder_eq_nil_iff.1 hnone hkey, ?_⟩
    exact (length_valuesUnder_flatten hkeys).trans_le List.countP_le_length
  · rfl

namespace Shape

variable {values : List Json}

/-- A flag says whether there is a value of its sort. -/
theorem any_eq_true_iff {γ : Type} {p : Json → Bool} {make : γ → Json}
    (hp : ∀ v, p v = true ↔ ∃ c, make c = v) : values.any p = true ↔ ∃ c, make c ∈ values := by
  rw [List.any_eq_true]
  refine ⟨fun ⟨v, hv, hpv⟩ => ?_, fun ⟨c, hc⟩ => ⟨_, hc, (hp _).2 ⟨c, rfl⟩⟩⟩
  obtain ⟨c, rfl⟩ := (hp v).1 hpv
  exact ⟨c, hv⟩

section Part

variable {α β : Type} {entries : List α} {part part' : β}

theorem part_eq_none_iff :
    (if entries.isEmpty then none else some part) = none ↔ ∀ e, e ∉ entries := by
  rw [← List.eq_nil_iff_forall_not_mem]
  cases entries <;> simp

theorem eq_of_part_eq_some (h : (if entries.isEmpty then none else some part) = some part') :
    part' = part := by
  split at h
  · cases h
  · exact (Option.some.inj h).symm

end Part

/-- **The shape of values describes them.** -/
theorem describes_ofValues (hvalues : ∀ v ∈ values, v.IsValue) :
    (ofValues values).Describes values := by
  rw [ofValues_eq]
  refine ⟨?_, any_eq_true_iff ?_, any_eq_true_iff ?_, any_eq_true_iff ?_, ?_, ?_, ?_, fun _ h => ?_,
    fun _ h => ?_, fun _ h => ?_⟩
  · rw [List.any_eq_true]
    refine ⟨?_, fun h => ⟨_, h, rfl⟩⟩
    rintro ⟨v, hv, hnull⟩
    cases v <;> first | exact hv | cases hnull
  · rintro (_ | _ | _ | _ | _ | _ | _) <;> simp
  · rintro (_ | _ | _ | _ | _ | _ | _) <;> simp
  · rintro (_ | _ | _ | _ | _ | _ | _) <;> simp
  · simp only [part_eq_none_iff, mem_textsIn]
  · simp only [part_eq_none_iff, mem_arraysIn]
  · simp only [part_eq_none_iff, mem_objectsIn]
  · exact eq_of_part_eq_some h
  · obtain rfl := eq_of_part_eq_some h
    exact ⟨rfl, rfl⟩
  · obtain rfl := eq_of_part_eq_some h
    exact ObjectShape.describes_fieldsOf (nodup_keys_of_mem_objectsIn hvalues)

/-! ### Places -/

/-- The shape at the end of a path, if it has one there. -/
def along? : List Access → Shape → Option Shape
  | [], s => some s
  | access :: path, s => (s.inner? access).bind (along? path)

/-- **The shape of values has, at the end of a path, the shape of the values there.** It has none where
there are no values. -/
theorem along?_ofValues (path : List Access) :
    (ofValues values).along? path = some (ofValues (valuesAt path values)) ∨
      (ofValues values).along? path = none ∧ valuesAt path values = [] := by
  induction path generalizing values with
  | nil => exact .inl rfl
  | cons access path ih =>
    rw [along?]
    rcases inner?_ofValues access with hinner | ⟨hinner, hnone⟩
    · rw [hinner]
      exact ih
    · rw [hinner]
      refine .inr ⟨rfl, ?_⟩
      rw [valuesAt_cons, hnone, valuesAt_of_isEmpty]

/-- Observing values one after the other gives their shape. -/
theorem foldl_observe {s : Shape} : values.foldl observe s = observeItems s values := by
  induction values generalizing s with
  | nil => rfl
  | cons v rest ih => exact ih

/-- **A shape describes what it observed, place by place.** At the end of every path it is the shape
of the values there, and describes them: by which sorts there are, by all strings, by the arrays and
their items, and by the objects with their keys, each counted for the objects that have it. In the
graph of samples with these values under a root, the class at the end of a path has a property for each
of these keys, in their order, and one is optional iff some object there lacks the key. -/
theorem observe_describes_places (hvalues : ∀ v ∈ values, v.IsValue) :
    (∀ path, ((values.foldl observe ∅).along? path = none → valuesAt path values = []) ∧
      ∀ s, (values.foldl observe ∅).along? path = some s →
        s = ofValues (valuesAt path values) ∧ s.Describes (valuesAt path values)) ∧
    ∀ samples root options, valuesUnder root samples = values →
      ∃ g, (Samples.ofList samples).build options = .ok g ∧ ∀ path,
        (g.propertiesAt root path).map Property.name = keysAt path values ∧
        ∀ p ∈ g.propertiesAt root path, p.optional = true ↔
          ∃ members ∈ objectsIn (valuesAt path values), p.name ∉ members.map Prod.fst := by
  refine ⟨fun path => ?_, ?_⟩
  · rw [foldl_observe, ← ofValues]
    rcases along?_ofValues path with halong | ⟨halong, hnone⟩
    · rw [halong]
      refine ⟨nofun, fun s hs => ?_⟩
      obtain rfl := Option.some.inj hs
      exact ⟨rfl, describes_ofValues (isValue_of_mem_valuesAt hvalues path)⟩
    · rw [halong]
      exact ⟨fun _ => hnone, nofun⟩
  · rintro samples root options rfl
    obtain ⟨g, hg, hmarks⟩ := (Samples.build_marksAt samples options).exists_ok fun _ => id
    refine ⟨g, hg, fun path => ⟨?_, fun p hp => ?_⟩⟩
    · rw [← map_fst_marksAt, ← hmarks, List.map_map]
      rfl
    · have hmark : p.mark ∈ marksAt path (valuesUnder root samples) :=
        hmarks root path ▸ List.mem_map_of_mem hp
      obtain ⟨key, -, heq⟩ := List.mem_map.1 hmark
      obtain ⟨rfl, hoptional⟩ := Prod.mk.inj heq
      rw [← hoptional, decide_eq_true_iff]
      exact length_valuesUnder_flatten_lt_iff
        (nodup_keys_of_mem_objectsIn (isValue_of_mem_valuesAt hvalues path))

/-- Two objects of one root, the first with objects in an array, of which one has a key more, and
something of another root between them. -/
def listed : List (String × Json) :=
  [("r", .object [("a", .array [.object [("x", .integer 1)],
      .object [("x", .null), ("y", .string "s")]])]),
    ("q", .null), ("r", .object [("a", .array [])])]

/-- The objects in the arrays have two keys, and the second one is optional. -/
theorem observe_describes_places_listed : (∀ v ∈ valuesUnder "r" listed, v.IsValue) ∧
    (∃ s, ((valuesUnder "r" listed).foldl observe ∅).along? [.under "a", .items] = some s ∧
      s.Describes [.object [("x", .integer 1)], .object [("x", .null), ("y", .string "s")]]) ∧
    ∃ g, (Samples.ofList listed).build ⟨true⟩ = .ok g ∧
      (g.propertiesAt "r" [.under "a", .items]).map Property.name = ["x", "y"] ∧
      ∀ p ∈ g.propertiesAt "r" [.under "a", .items], p.optional = true ↔ p.name = "y" := by
  have hvalues : ∀ v ∈ valuesUnder "r" listed, v.IsValue :=
    Json.isValue_normalItems (valuesUnder "r" listed)
  obtain ⟨hshape, hgraph⟩ := observe_describes_places hvalues
  obtain ⟨g, hg, hproperties⟩ := hgraph listed "r" ⟨true⟩ rfl
  obtain ⟨hkeys, hoptional⟩ := hproperties [.under "a", .items]
  have hnames : (g.propertiesAt "r" [.under "a", .items]).map Property.name = ["x", "y"] := hkeys
  refine ⟨hvalues, ⟨_, rfl, ((hshape [.under "a", .items]).2 _ rfl).2⟩, g, hg, hnames, fun p hp => ?_⟩
  have hname : p.name ∈ ["x", "y"] := hnames ▸ List.mem_map_of_mem hp
  have hobjects : objectsIn (valuesAt [.under "a", .items] (valuesUnder "r" listed)) =
      [[("x", .integer 1)], [("x", .null), ("y", .string "s")]] := rfl
  rw [hoptional p hp, hobjects]
  rcases List.mem_pair.1 hname with h | h <;> simp [h]

end Shape

end SchemaGraph
