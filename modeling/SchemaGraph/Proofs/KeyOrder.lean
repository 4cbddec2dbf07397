import SchemaGraph.Proofs.NormalForm

/-!
# Keys and strings along paths

A shape lists the keys of objects in the order in which they are first seen, and the graph of samples
keeps it. Along every path, which leads into the items of arrays and to what objects have under a key,
the properties of the class there are named by the keys that the samples have there, in that order, and
a property is optional if its key comes up less often than there are objects
(`SchemaGraph.Samples.build_marksAt`). And if there are strings among the values there, the graph has
the node for them that is concluded from all of them together (`SchemaGraph.Samples.build_stringsAt`).

A path is followed through a graph without looking at names of places: a union is taken apart into its
members, of which one at most is an array, one at most is a class, and one at most is for strings. All
that is read at the end of a path is read at once (`SchemaGraph.readAlong`), off values by way of their
shape and off a graph, and lowering a shape keeps it (`SchemaGraph.Draft.Reads`).
-/

namespace SchemaGraph

/-! ### Places of values -/

/-- A way further inside. -/
inductive Access
  /-- To the items of arrays. -/
  | items
  /-- To what objects have under a key. -/
  | under (key : String)
deriving DecidableEq

/-- What values have inside. -/
def Access.values : Access → List Json → List Json
  | items, values => (arraysIn values).flatten
  | under key, values => valuesUnder key (objectsIn values).flatten

/-- What values have at the end of a path. -/
def valuesAt (path : List Access) (values : List Json) : List Json :=
  path.foldl (fun values access => access.values values) values

@[simp] theorem valuesAt_cons {access : Access} {path : List Access} {values : List Json} :
    valuesAt (access :: path) values = valuesAt path (access.values values) := rfl

/-- Where there are no values there is nothing further inside. -/
theorem valuesAt_of_isEmpty (path : List Access) : valuesAt path [] = [] := by
  induction path with
  | nil => rfl
  | cons access path ih => cases access <;> exact ih

/-- The keys of the objects at the end of a path, in the order in which they are first seen. -/
def keysAt (path : List Access) (values : List Json) : List String :=
  firstSeen (objectsIn (valuesAt path values)).flatten

@[simp] theorem keysAt_nil {values : List Json} :
    keysAt [] values = firstSeen (objectsIn values).flatten := rfl

/-- The keys of the objects at the end of a path, each with whether it comes up less often than there
are objects. -/
def marksAt (path : List Access) (values : List Json) : List (String × Bool) :=
  let objects := objectsIn (valuesAt path values)
  (keysAt path values).map fun key =>
    (key, decide ((valuesUnder key objects.flatten).length < objects.length))

@[simp] theorem marksAt_cons {access : Access} {path : List Access} {values : List Json} :
    marksAt (access :: path) values = marksAt path (access.values values) := rfl

theorem map_fst_marksAt {path : List Access} {values : List Json} :
    (marksAt path values).map Prod.fst = keysAt path values := by
  rw [marksAt, List.map_map]
  exact List.map_id _

theorem marksAt_of_isEmpty (path : List Access) : marksAt path [] = [] := by
  rw [marksAt, keysAt, valuesAt_of_isEmpty]
  rfl

/-- The strings at the end of a path. -/
def textsAt (path : List Access) (values : List Json) : List String := textsIn (valuesAt path values)

@[simp] theorem textsAt_cons {access : Access} {path : List Access} {values : List Json} :
    textsAt (access :: path) values = textsAt path (access.values values) := rfl

theorem textsAt_of_isEmpty (path : List Access) : textsAt path [] = [] := by
  rw [textsAt, valuesAt_of_isEmpty]
  rfl

/-! ### The node for strings -/

/-- The node for strings: the enum of them, or their kind. -/
def StringShape.node (s : StringShape) : Node :=
  match s.closedLabels? with
  | some cases => .enum cases
  | none => .primitive s.kind

/-- The node for some texts, if there are any. -/
def nodeOfTexts (texts : List String) : Option Node :=
  if texts.isEmpty then none else some (StringShape.ofTexts texts).node

theorem StringShape.sort?_node_ofTexts {texts : List String} :
    (ofTexts texts).node.kind.sort? = some .string := by
  rw [node]
  split
  · rfl
  · exact sort?_kind_ofTexts

/-- It is stored as it is: no case is there twice. -/
theorem StringShape.canonical_node {s : StringShape} : s.node.canonical .preserving false = s.node := by
  rw [node]
  split
  · next cases hcases =>
    have hliterals : s.literals.toList = cases :=
      Option.some.inj (Option.ite_none_right_eq_some.1 hcases).2
    have hnodup : cases.Nodup := hliterals ▸ SortedSet.nodup_toList String.lt_irrefl
    exact congrArg Node.enum (eraseDups_eq_self_of_nodup hnodup)
  · exact congrArg Node.primitive (StringMapping.apply_preserving _)

/-! ### Places of a shape -/

/-- The keys of the fields, each with whether its property is optional. -/
def ObjectShape.marks (o : ObjectShape) : List (String × Bool) :=
  o.fields.map fun f => (f.key, decide (f.presentIn < o.seen))

namespace Shape

/-- The shape of what is inside. -/
def inner? (s : Shape) : Access → Option Shape
  | .items => s.array.map ArrayShape.items
  | .under key => s.object.bind fun o => (o.fields.find? (·.key = key)).map FieldShape.shape

/-- The keys at the end of a path, each with whether its property is optional. -/
def marksAlong : List Access → Shape → List (String × Bool)
  | [], s => (s.object.map ObjectShape.marks).getD []
  | access :: path, s => (s.inner? access).elim [] (marksAlong path)

/-- The node for the strings at the end of a path. -/
def stringsAlong : List Access → Shape → Option Node
  | [], s => s.strings.map StringShape.node
  | access :: path, s => (s.inner? access).elim none (stringsAlong path)

/-- What is read at the end of a path. -/
def readAlong (path : List Access) (s : Shape) : List (String × Bool) × Option Node :=
  (s.marksAlong path, s.stringsAlong path)

theorem readAlong_cons {access : Access} {path : List Access} {s : Shape} :
    s.readAlong (access :: path) = (s.inner? access).elim ([], none) (readAlong path) := by
  rw [readAlong, marksAlong, stringsAlong]
  cases s.inner? access <;> rfl

variable {values : List Json}

theorem find?_fieldsOf {key : String} {members : List (String × Json)} :
    (fieldsOf members).find? (·.key = key) = if key ∈ firstSeen members
      then some ⟨key, (valuesUnder key members).length, .ofValues (valuesUnder key members)⟩
      else none := by
  rw [fieldsOf, List.find?_map]
  change ((firstSeen members).find? fun k => k = key).map _ = _
  cases hfind : (firstSeen members).find? fun k => k = key with
  | some k =>
    obtain rfl : k = key := by simpa using List.find?_some hfind
    rw [if_pos (List.mem_of_find?_eq_some hfind), Option.map_some]
  | none =>
    have hkey : key ∉ firstSeen members := fun hmem => by
      simpa using List.find?_eq_none.1 hfind key hmem
    rw [if_neg hkey, Option.map_none]

/-- What is inside the shape of values is the shape of what they have inside, if anything. -/
theorem inner?_ofValues (access : Access) :
    (ofValues values).inner? access = some (ofValues (access.values values)) ∨
      (ofValues values).inner? access = none ∧ access.values values = [] := by
  cases access with
  | items =>
    rw [inner?, array_ofValues, Access.values]
    cases arraysIn values with
    | nil => exact .inr ⟨rfl, rfl⟩
    | cons items rest => exact .inl rfl
  | under key =>
    rw [inner?, object_ofValues, Access.values]
    cases objectsIn values with
    | nil => exact .inr ⟨rfl, rfl⟩
    | cons members rest =>
      change ((fieldsOf (members :: rest).flatten).find? (·.key = key)).map _ = _ ∨
        ((fieldsOf (members :: rest).flatten).find? (·.key = key)).map _ = none ∧ _
      rw [find?_fieldsOf]
      split
      · exact .inl rfl
      · next hkey => exact .inr ⟨rfl, valuesUnder_eq_nil_iff.2 hkey⟩

/-- **The shape of values has their keys**, in their order, and counts them, and it has their strings. -/
theorem readAlong_ofValues (path : List Access) :
    (ofValues values).readAlong path = (marksAt path values, nodeOfTexts (textsAt path values)) := by
  induction path generalizing values with
  | nil =>
    have hmarks : marksAt [] values = (ObjectShape.mk (objectsIn values).length
        (fieldsOf (objectsIn values).flatten)).marks := by
      rw [marksAt, ObjectShape.marks, fieldsOf, List.map_map]
      rfl
    have hstrings : (ofValues values).strings =
        if (textsIn values).isEmpty then none else some (.ofTexts (textsIn values)) := by
      rw [ofValues_eq]
    rw [readAlong, marksAlong, stringsAlong, object_ofValues, hstrings, hmarks]
    refine Prod.ext ?_ ?_
    · cases hobjects : objectsIn values with
      | nil => rfl
      | cons members rest => rfl
    · change _ = nodeOfTexts (textsIn values)
      cases textsIn values with
      | nil => rfl
      | cons text rest => rfl
  | cons access path ih =>
    rw [readAlong_cons, marksAt_cons, textsAt_cons]
    rcases inner?_ofValues access with hinner | ⟨hinner, hnone⟩
    · rw [hinner]
      exact ih
    · rw [hinner, hnone, marksAt_of_isEmpty, textsAt_of_isEmpty]
      rfl

end Shape

/-! ### Places of a graph -/

/-- The node of the items. -/
def Node.items? : Node → Option Ref
  | array items => some items
  | _ => none

/-- The node itself, if its values are strings. -/
def Node.strings? (n : Node) : Option Node := if n.kind.sort? = some .string then some n else none

/-- The name of the property, with whether it is optional. -/
def Property.mark (p : Property) : String × Bool := (p.name, p.optional)

/-- The properties of a class. -/
def Node.properties? : Node → Option (List Property)
  | object properties => some properties
  | _ => none

section Graph

variable {α : Type} (node? : Nat → Option Node)

/-- The nodes that a node is made of: the members of a union, and else the node alone. -/
def partsAt (r : Ref) : List Ref :=
  match node? r.index with
  | some (.union members) => members.toList
  | _ => [r]

/-- What the first of some nodes has that has something. -/
def firstOf (select : Node → Option α) (rs : List Ref) : Option α :=
  rs.findSome? fun r => (node? r.index).bind select

/-- The node of what is inside. -/
def innerAt (rs : List Ref) : Access → Option Ref
  | .items => firstOf node? Node.items? rs
  | .under key => (firstOf node? Node.properties? rs).bind fun properties =>
      (properties.find? (·.name = key)).map Property.type

/-- The properties of the class at the end of a path. -/
def propertiesAlong : List Access → List Ref → List Property
  | [], rs => (firstOf node? Node.properties? rs).getD []
  | access :: path, rs => (innerAt node? rs access).elim [] fun r =>
      propertiesAlong path (partsAt node? r)

/-- The node for strings at the end of a path. -/
def stringsAlong : List Access → List Ref → Option Node
  | [], rs => firstOf node? Node.strings? rs
  | access :: path, rs => (innerAt node? rs access).elim none fun r =>
      stringsAlong path (partsAt node? r)

/-- What is read at the end of a path. -/
def readAlong (path : List Access) (rs : List Ref) : List (String × Bool) × Option Node :=
  ((propertiesAlong node? path rs).map Property.mark, stringsAlong node? path rs)

end Graph

section Graph

variable {α : Type} {node? node?' : Nat → Option Node} {rs rs' : List Ref} {sort : ValueSort}
  {sorts sorts' : List ValueSort} {select : Node → Option α} {path : List Access}

theorem readAlong_nil : readAlong node? [] rs =
    (((firstOf node? Node.properties? rs).getD []).map Property.mark,
      firstOf node? Node.strings? rs) := rfl

theorem readAlong_cons {access : Access} : readAlong node? (access :: path) rs =
    (innerAt node? rs access).elim ([], none) fun r => readAlong node? path (partsAt node? r) := by
  rw [readAlong, propertiesAlong, stringsAlong]
  cases innerAt node? rs access <;> rfl

/-- Nodes are read by what the first of them have. -/
theorem readAlong_congr (hitems : firstOf node? Node.items? rs = firstOf node? Node.items? rs')
    (hproperties : firstOf node? Node.properties? rs = firstOf node? Node.properties? rs')
    (hstrings : firstOf node? Node.strings? rs = firstOf node? Node.strings? rs') :
    readAlong node? path rs = readAlong node? path rs' := by
  cases path with
  | nil => rw [readAlong_nil, readAlong_nil, hproperties, hstrings]
  | cons access path =>
    have hinner : innerAt node? rs access = innerAt node? rs' access := by
      cases access with
      | items => exact hitems
      | under key => rw [innerAt, innerAt, hproperties]
    rw [readAlong_cons, readAlong_cons, hinner]

theorem firstOf_append : firstOf node? select (rs ++ rs') =
    (firstOf node? select rs).or (firstOf node? select rs') :=
  List.findSome?_append

theorem firstOf_congr (hsame : ∀ r ∈ rs, node?' r.index = node? r.index) :
    firstOf node?' select rs = firstOf node? select rs := by
  induction rs with
  | nil => rfl
  | cons r rest ih =>
    obtain ⟨hr, hrest⟩ := List.forall_mem_cons.1 hsame
    rw [firstOf, firstOf, List.findSome?_cons, List.findSome?_cons, hr]
    cases (node? r.index).bind select with
    | some a => rfl
    | none => exact ih hrest

/-- What is had by nodes of one sort only. -/
def Tells (select : Node → Option α) (sort : ValueSort) : Prop :=
  ∀ n a, select n = some a → n.kind.sort? = some sort

theorem tells_items : Tells Node.items? .array := by
  rintro (_ | _ | _ | _ | _ | _ | _) a h <;> first | rfl | cases h

theorem tells_properties : Tells Node.properties? .object := by
  rintro (_ | _ | _ | _ | _ | _ | _) a h <;> first | rfl | cases h

theorem tells_strings : Tells Node.strings? .string := by
  intro n a h
  exact (Option.ite_none_right_eq_some.1 h).1

/-- Whatever is found is with a node of the sort. -/
theorem exists_of_firstOf {a : α} (htells : Tells select sort)
    (h : firstOf node? select rs = some a) :
    ∃ r ∈ rs, sortAt node? r = some sort ∧ (node? r.index).bind select = some a := by
  obtain ⟨r, hr, ha⟩ := List.exists_of_findSome?_eq_some h
  obtain ⟨n, hn, hselect⟩ := Option.bind_eq_some_iff.1 ha
  refine ⟨r, hr, ?_, ha⟩
  rw [sortAt, hn]
  exact htells n a hselect

/-- Nodes of other sorts have nothing. -/
theorem firstOf_eq_none (htells : Tells select sort) (h : OfSorts node? sorts rs)
    (hsort : sort ∉ sorts) : firstOf node? select rs = none := by
  by_contra hne
  obtain ⟨a, ha⟩ := Option.ne_none_iff_exists'.1 hne
  obtain ⟨r, hr, hsame, -⟩ := exists_of_firstOf htells ha
  have hmem := h.subset (List.mem_map_of_mem hr)
  rw [hsame, List.mem_map_of_injective (Option.some_injective _)] at hmem
  exact hsort hmem

/-- Among nodes of different sorts, the order does not matter. -/
theorem firstOf_perm (htells : Tells select sort) (h : OfSorts node? sorts rs) (hnd : sorts.Nodup)
    (hmem : ∀ r, r ∈ rs' ↔ r ∈ rs) : firstOf node? select rs' = firstOf node? select rs := by
  have hinj : (rs.map (sortAt node?)).Nodup := h.nodup (hnd.map (Option.some_injective _))
  cases hfirst : firstOf node? select rs with
  | none =>
    rw [firstOf, List.findSome?_eq_none_iff] at hfirst ⊢
    exact fun r hr => hfirst r ((hmem r).1 hr)
  | some a =>
    obtain ⟨r, hr, hsort, ha⟩ := exists_of_firstOf htells hfirst
    cases hfirst' : firstOf node? select rs' with
    | none =>
      rw [firstOf, List.findSome?_eq_none_iff] at hfirst'
      rw [hfirst' r ((hmem r).2 hr)] at ha
      cases ha
    | some a' =>
      obtain ⟨r', hr', hsort', ha'⟩ := exists_of_firstOf htells hfirst'
      obtain rfl := List.inj_on_of_nodup_map hinj hr ((hmem r').1 hr') (hsort.trans hsort'.symm)
      exact ha'.symm.trans ha

end Graph

/-! ### Drafts -/

namespace Draft

variable {b c : Draft} {r : Ref} {rs : List Ref} {s : Shape} {path : List Access}
  {filled : Ref → Prop} {marked : Bool}

theorem Plain.hasSlot_of_mem_partsAt (hb : b.Plain) (hr : b.HasSlot r) :
    ∀ s ∈ partsAt b.node? r, b.HasSlot s := by
  intro s hs
  rw [partsAt] at hs
  split at hs
  · next members hn => exact hb.children (holds_of_node? hn) s hs
  · exact List.mem_singleton.1 hs ▸ hr

theorem Plain.hasSlot_of_innerAt {access : Access} (hb : b.Plain)
    (h : innerAt b.node? rs access = some r) : b.HasSlot r := by
  cases access with
  | items =>
    obtain ⟨s, -, hs⟩ := List.exists_of_findSome?_eq_some h
    obtain ⟨n, hn, hselect⟩ := Option.bind_eq_some_iff.1 hs
    cases n with
    | array items =>
      obtain rfl := Option.some.inj hselect
      exact hb.children (holds_of_node? hn) _ (by simp [Node.children])
    | _ => cases hselect
  | under key =>
    obtain ⟨properties, hproperties, hfind⟩ := Option.bind_eq_some_iff.1 h
    obtain ⟨p, hp, rfl⟩ := Option.map_eq_some_iff.1 hfind
    obtain ⟨s, -, hs⟩ := List.exists_of_findSome?_eq_some hproperties
    obtain ⟨n, hn, hselect⟩ := Option.bind_eq_some_iff.1 hs
    cases n with
    | object properties =>
      obtain rfl := Option.some.inj hselect
      exact hb.children (holds_of_node? hn) _ (List.mem_map_of_mem (List.mem_of_find?_eq_some hp))
    | _ => cases hselect

/-- Nodes that are there are read the same in a draft with more nodes. -/
theorem Extends.readAlong_eq (h : b.Extends filled c) (hb : b.Plain) (hrs : ∀ r ∈ rs, b.HasSlot r) :
    readAlong c.node? path rs = readAlong b.node? path rs := by
  have hfirst : ∀ {α : Type} {select : Node → Option α} {rs : List Ref}, (∀ r ∈ rs, b.HasSlot r) →
      firstOf c.node? select rs = firstOf b.node? select rs := fun hrs =>
    firstOf_congr fun r hr => h.node?_eq hb (hrs r hr)
  induction path generalizing rs with
  | nil => rw [readAlong_nil, readAlong_nil, hfirst hrs, hfirst hrs]
  | cons access path ih =>
    have hinner : innerAt c.node? rs access = innerAt b.node? rs access := by
      cases access with
      | items => exact hfirst hrs
      | under key => rw [innerAt, innerAt, hfirst hrs]
    rw [readAlong_cons, readAlong_cons, hinner]
    cases hr : innerAt b.node? rs access with
    | none => rfl
    | some r =>
      have hslot := hb.hasSlot_of_innerAt hr
      have hparts : partsAt c.node? r = partsAt b.node? r := by
        rw [partsAt, partsAt, h.node?_eq hb hslot]
      change readAlong c.node? path (partsAt c.node? r) = _
      rw [hparts]
      exact ih (hb.hasSlot_of_mem_partsAt hslot)

/-- Along all paths, there is in the nodes what there is in the shape: the same keys, of which the same
ones are optional, and the node for the same strings. -/
structure Reads (b : Draft) (rs : List Ref) (s : Shape) : Prop where
  slots : ∀ r ∈ rs, b.HasSlot r
  reads : ∀ path, readAlong b.node? path rs = s.readAlong path

theorem Reads.extend (h : b.Reads rs s) (hb : b.Plain) (hc : b.Extends filled c) : c.Reads rs s where
  slots r hr := hc.hasSlot (h.slots r hr)
  reads path := (hc.readAlong_eq hb h.slots).trans (h.reads path)

end Draft

namespace Build

variable {b b' c : Draft} {name : String} {marked : Bool} {rs : List Ref} {sorts : List ValueSort}
  {s : Shape}

theorem Lowers.and {α : Type} {post post' : Draft → α → Prop} {x : Build α} (h : Lowers b x post)
    (h' : Lowers b x post') : Lowers b x fun c a => post c a ∧ post' c a :=
  (Ends.and h (Ends.mono_bad h' fun _ => False.elim)).mono fun _ hout =>
    ⟨hout.1.1, hout.1.2, hout.2.2⟩

/-- The node of a place is made of its parts. -/
theorem reads_joinMembers (hb : b.Plain) (hrs : b.Reads rs s) (hsorts : OfSorts b.node? sorts rs)
    (hnd : sorts.Nodup) :
    Lowers b (joinMembers name rs) fun c r => c.HasSlot r ∧ c.Reads (partsAt c.node? r) s := by
  have hmem : ∀ r, r ∈ (SortedSet.ofList rs).toList ↔ r ∈ rs := fun r => SortedSet.mem_toList_ofList
  have hread : b.Reads (SortedSet.ofList rs).toList s := by
    refine ⟨fun r hr => hrs.slots r ((hmem r).1 hr), fun path => ?_⟩
    rw [← hrs.reads]
    exact readAlong_congr (firstOf_perm tells_items hsorts hnd hmem)
      (firstOf_perm tells_properties hsorts hnd hmem) (firstOf_perm tells_strings hsorts hnd hmem)
  unfold joinMembers
  dsimp only
  split
  · next hnil =>
    rw [hnil] at hread
    refine (lowers_intern hb (by simp [Node.children]) (by simp [Node.kind]) among_empty).mono
      fun r c hc hr => ?_
    have hparts : partsAt c.node? r = [r] := by
      rw [partsAt, hr.node?]
      rfl
    rw [hparts]
    refine ⟨hr.hasSlot, List.forall_mem_singleton.2 hr.hasSlot, fun path => ?_⟩
    rw [← hread.reads]
    refine (readAlong_congr ?_ ?_ ?_).trans (hc.extension.readAlong_eq hb hread.slots)
    · simp [firstOf, hr.node?, Node.canonical, Node.items?]
    · simp [firstOf, hr.node?, Node.canonical, Node.properties?]
    · simp [firstOf, hr.node?, Node.canonical, StringMapping.apply_preserving, Node.strings?,
        Node.kind, NodeKind.sort?]
  · next only honly =>
    rw [honly] at hread
    have honly' : only ∈ rs := (hmem only).1 (honly ▸ List.mem_singleton_self only)
    have hparts : partsAt b.node? only = [only] := by
      rw [partsAt]
      split
      · next members hn =>
        have hsort := hsorts.subset (List.mem_map_of_mem honly')
        simp [sortAt, hn, Node.kind, NodeKind.sort?] at hsort
      · rfl
    exact lowers_pure hb ⟨hread.slots only (by simp), hparts ▸ hread⟩
  · have hchildren : ∀ c ∈ (Node.union (.ofList rs)).children, b.HasSlot c := fun c hc =>
      hread.slots c hc
    refine (lowers_intern hb hchildren (by simp [Node.kind]) among_nameAttribute).mono
      fun r c hc hr => ⟨hr.hasSlot, ?_⟩
    have hparts : partsAt c.node? r = (SortedSet.ofList rs).toList := by
      rw [partsAt, hr.node?]
      rfl
    exact hparts ▸ hread.extend hb hc.extension

/-- Parts of different sorts are read as the shape that they are parts of. -/
theorem reads_append {null bool integer real : Bool} {strings : Option StringShape}
    {array : Option ArrayShape} {object : Option ObjectShape} {scalars texts arrays objects : List Ref}
    (hscalars : OfSorts b.node? [.null, .bool, .number] scalars)
    (htexts : OfSorts b.node? [.string] texts) (harrays : OfSorts b.node? [.array] arrays)
    (hobjects : OfSorts b.node? [.object] objects) (hslots : ∀ r ∈ scalars, b.HasSlot r)
    (htext : b.Reads texts (.ofStrings strings)) (harray : b.Reads arrays (.ofArrays array))
    (hobject : b.Reads objects (.ofObjects object)) :
    b.Reads (scalars ++ texts ++ arrays ++ objects)
      ⟨null, bool, integer, real, strings, array, object⟩ := by
  refine ⟨fun r hr => ?_, fun path => ?_⟩
  · rcases List.mem_append.1 hr with hr | hr
    · rcases List.mem_append.1 hr with hr | hr
      · exact (List.mem_append.1 hr).elim (hslots r) (htext.slots r)
      · exact harray.slots r hr
    · exact hobject.slots r hr
  · have hitems : firstOf b.node? Node.items? (scalars ++ texts ++ arrays ++ objects) =
        firstOf b.node? Node.items? arrays := by
      rw [firstOf_append, firstOf_append, firstOf_append,
        firstOf_eq_none tells_items hscalars (by decide),
        firstOf_eq_none tells_items htexts (by decide),
        firstOf_eq_none tells_items hobjects (by decide)]
      simp
    have hproperties : firstOf b.node? Node.properties? (scalars ++ texts ++ arrays ++ objects) =
        firstOf b.node? Node.properties? objects := by
      rw [firstOf_append, firstOf_append, firstOf_append,
        firstOf_eq_none tells_properties hscalars (by decide),
        firstOf_eq_none tells_properties htexts (by decide),
        firstOf_eq_none tells_properties harrays (by decide)]
      simp
    have hstrings : firstOf b.node? Node.strings? (scalars ++ texts ++ arrays ++ objects) =
        firstOf b.node? Node.strings? texts := by
      rw [firstOf_append, firstOf_append, firstOf_append,
        firstOf_eq_none tells_strings hscalars (by decide),
        firstOf_eq_none tells_strings harrays (by decide),
        firstOf_eq_none tells_strings hobjects (by decide)]
      simp
    -- arrays have what is in items, and classes have the rest that is inside
    rcases path with _ | ⟨_ | key, path⟩
    · rw [readAlong_nil, hproperties, hstrings]
      have hmarks := congrArg Prod.fst (hobject.reads [])
      have hnode := congrArg Prod.snd (htext.reads [])
      exact Prod.ext hmarks hnode
    · refine Eq.trans ?_ (harray.reads (.items :: path))
      rw [readAlong_cons, readAlong_cons, innerAt, innerAt, hitems]
    · refine Eq.trans ?_ (hobject.reads (.under key :: path))
      rw [readAlong_cons, readAlong_cons, innerAt, innerAt, hproperties]

/-- The properties have the names of the fields and are optional alike, and have types that are read
as their shapes. -/
def ReadsFields (b : Draft) (seen : Nat) : List Property → List FieldShape → Prop :=
  List.Forall₂ fun p f => p.mark = (f.key, decide (f.presentIn < seen)) ∧ b.HasSlot p.type ∧
    b.Reads (partsAt b.node? p.type) f.shape

section Fields

variable {seen : Nat} {properties : List Property} {fields : List FieldShape}

theorem ReadsFields.extend (h : ReadsFields b seen properties fields) (hb : b.Plain)
    (hc : b.Gains c) : ReadsFields c seen properties fields :=
  List.Forall₂.imp (fun p f ⟨hmark, hslot, hreads⟩ => by
    refine ⟨hmark, hc.extension.hasSlot hslot, ?_⟩
    rw [partsAt, hc.extension.node?_eq hb hslot]
    exact hreads.extend hb hc.extension) h

theorem ReadsFields.hasSlot (h : ReadsFields b seen properties fields) :
    ∀ r ∈ (Node.object properties).children, b.HasSlot r := by
  change ∀ r ∈ properties.map Property.type, b.HasSlot r
  induction h with
  | nil => exact nofun
  | cons hfirst _ ih => exact List.forall_mem_cons.2 ⟨hfirst.2.1, ih⟩

theorem ReadsFields.marks (h : ReadsFields b seen properties fields) :
    properties.map Property.mark = (ObjectShape.mk seen fields).marks := by
  change _ = fields.map fun f => (f.key, decide (f.presentIn < seen))
  induction h with
  | nil => rfl
  | cons hfirst _ ih => rw [List.map_cons, List.map_cons, hfirst.1, ih]

/-- What is under a key is read alike. -/
theorem ReadsFields.under (h : ReadsFields b seen properties fields) (key : String)
    (path : List Access) :
    (((properties.find? (·.name = key)).map Property.type).elim ([], none)
        fun r => readAlong b.node? path (partsAt b.node? r)) =
      ((fields.find? (·.key = key)).map FieldShape.shape).elim ([], none) (Shape.readAlong path) := by
  induction h with
  | nil => rfl
  | @cons p f _ _ hfirst _ ih =>
    have hname : p.name = f.key := congrArg Prod.fst hfirst.1
    rw [List.find?_cons, List.find?_cons, hname]
    cases decide (f.key = key) with
    | true => exact hfirst.2.2.reads path
    | false => exact ih

end Fields

/-- A class is read as its fields. -/
theorem reads_object {r : Ref} {properties : List Property} {seen : Nat} {fields : List FieldShape}
    (h : ReadsFields b seen properties fields) (hr : b.Holds r (.object properties)) :
    b.Reads [r] (.ofObjects (some ⟨seen, fields⟩)) := by
  have hitems : firstOf b.node? Node.items? [r] = none := by
    simp [firstOf, hr.node?, Node.items?]
  have hproperties : firstOf b.node? Node.properties? [r] = some properties := by
    simp [firstOf, hr.node?, Node.properties?]
  have hstrings : firstOf b.node? Node.strings? [r] = none := by
    simp [firstOf, hr.node?, Node.strings?, Node.kind, NodeKind.sort?]
  refine ⟨List.forall_mem_singleton.2 hr.hasSlot, fun path => ?_⟩
  rcases path with _ | ⟨_ | key, path⟩
  · rw [readAlong_nil, hproperties, hstrings]
    exact Prod.ext h.marks rfl
  · rw [readAlong_cons, innerAt, hitems]
    rfl
  · rw [readAlong_cons, Shape.readAlong_cons, innerAt, hproperties]
    exact h.under key path

/-- An array is read as its items. -/
theorem reads_array {r items : Ref} {samples : Nat}
    (h : b.Reads (partsAt b.node? items) s) (hr : b.Holds r (.array items)) :
    b.Reads [r] (.ofArrays (some ⟨samples, s⟩)) := by
  have hitems : firstOf b.node? Node.items? [r] = some items := by
    simp [firstOf, hr.node?, Node.items?]
  have hproperties : firstOf b.node? Node.properties? [r] = none := by
    simp [firstOf, hr.node?, Node.properties?]
  have hstrings : firstOf b.node? Node.strings? [r] = none := by
    simp [firstOf, hr.node?, Node.strings?, Node.kind, NodeKind.sort?]
  refine ⟨List.forall_mem_singleton.2 hr.hasSlot, fun path => ?_⟩
  rcases path with _ | ⟨_ | key, path⟩
  · rw [readAlong_nil, hproperties, hstrings]
    rfl
  · rw [readAlong_cons, innerAt, hitems]
    exact h.reads path
  · rw [readAlong_cons, innerAt, hproperties]
    rfl

/-- Strings are read as what is concluded from them. -/
theorem reads_strings {r : Ref} {texts : List String}
    (hr : b.Holds r (StringShape.ofTexts texts).node) :
    b.Reads [r] (.ofStrings (some (.ofTexts texts))) := by
  have hsort : OfSorts b.node? [.string] [r] := by
    refine ofSorts_singleton ?_
    rw [sortAt, hr.node?]
    exact StringShape.sort?_node_ofTexts
  have hitems := firstOf_eq_none tells_items hsort (by decide)
  have hproperties := firstOf_eq_none tells_properties hsort (by decide)
  have hstrings : firstOf b.node? Node.strings? [r] = some (StringShape.ofTexts texts).node := by
    simp [firstOf, hr.node?, Node.strings?, StringShape.sort?_node_ofTexts]
  refine ⟨List.forall_mem_singleton.2 hr.hasSlot, fun path => ?_⟩
  rcases path with _ | ⟨_ | key, path⟩
  · rw [readAlong_nil, hproperties, hstrings]
    rfl
  · rw [readAlong_cons, innerAt, hitems]
    rfl
  · rw [readAlong_cons, innerAt, hproperties]
    rfl

/-- Where there are no strings, no arrays and no objects, there is nothing to read. -/
theorem reads_nil (h : s.strings = none) (h' : s.array = none) (h'' : s.object = none) :
    b.Reads [] s := by
  refine ⟨nofun, fun path => ?_⟩
  rcases path with _ | ⟨_ | key, path⟩
  · rw [Shape.readAlong, Shape.marksAlong, Shape.stringsAlong, h, h'']
    rfl
  · rw [Shape.readAlong_cons, Shape.inner?, h']
    rfl
  · rw [Shape.readAlong_cons, Shape.inner?, h'']
    rfl

theorem reads_stringNodes {strings : Option StringShape} (hb : b.Plain)
    (hseen : ∀ s, strings = some s → ∃ texts, s = .ofTexts texts) :
    Lowers b (stringNodes name strings) fun c rs => c.Reads rs (.ofStrings strings) := by
  cases strings with
  | none => exact lowers_pure hb (reads_nil rfl rfl rfl)
  | some s =>
    obtain ⟨texts, rfl⟩ := hseen s rfl
    have hlowers : ∀ {node attributes}, node = (StringShape.ofTexts texts).node →
        attributes.Among SampledKind → Lowers b (intern node attributes none) fun c r =>
          c.Holds r (StringShape.ofTexts texts).node := by
      rintro node attributes rfl hattributes
      have hkind : (StringShape.ofTexts texts).node.kind ≠ .intersection := fun hkind => by
        have hsort : NodeKind.sort? .intersection = some .string :=
          hkind ▸ StringShape.sort?_node_ofTexts
        cases hsort
      have hchildren : (StringShape.ofTexts texts).node.children = [] := by
        rw [StringShape.node]
        split <;> rfl
      refine (lowers_intern hb (by simp [hchildren]) hkind hattributes).mono fun r c _ hr => ?_
      rwa [StringShape.canonical_node] at hr
    rw [stringNodes]
    cases hcases : (StringShape.ofTexts texts).closedLabels? with
    | some cases =>
      have hnode : Node.enum cases = (StringShape.ofTexts texts).node := by
        rw [StringShape.node, hcases]
      exact (hlowers hnode among_nameAttribute).bind fun r c hc hr =>
        lowers_pure hc.plain (reads_strings hr)
    | none =>
      have hnode : Node.primitive (StringShape.ofTexts texts).kind = (StringShape.ofTexts texts).node := by
        rw [StringShape.node, hcases]
      exact (hlowers hnode among_empty).bind fun r c hc hr =>
        lowers_pure hc.plain (reads_strings hr)

mutual

/-- **The node of a place has the keys of its shape**, in their order, the same are optional, and it has
the node for the strings of its shape. -/
theorem reads_placeNode (name : String) :
    (s : Shape) → s.Seen → {b : Draft} → b.Orderly marked →
      Lowers b (placeNode name s) fun c r => c.HasSlot r ∧ c.Reads (partsAt c.node? r) s
  | ⟨null, bool, integer, real, strings, array, object⟩, hseen, b, hb => by
    obtain ⟨hstrings, harray, hobject⟩ := hseen.parts
    rw [placeNode]
    refine (orders_scalarNodes hb).bind fun scalars c₁ h₁ hs₁ => ?_
    refine ((orders_stringNodes hs₁.1.orderly hstrings).and
      (reads_stringNodes hs₁.1.orderly.plain hstrings)).bind fun texts c₂ h₂ ⟨hs₂, hr₂⟩ => ?_
    refine ((orders_arrayNodes name array harray hs₂.1.orderly).and
      (reads_arrayNodes name array harray hs₂.1.orderly)).bind fun arrays c₃ h₃ ⟨hs₃, hr₃⟩ => ?_
    refine ((orders_objectNodes name object hobject hs₃.1.orderly).and
      (reads_objectNodes name object hobject hs₃.1.orderly)).bind fun objects c₄ h₄ ⟨hs₄, hr₄⟩ => ?_
    have hscalars := hs₁.1.ofSorts_extend hs₁.2 (h₂.trans (h₃.trans h₄))
    have htexts := hs₂.1.ofSorts_extend hs₂.2 (h₃.trans h₄)
    have harrays := hs₃.1.ofSorts_extend hs₃.2 h₄
    have hslots : ∀ r ∈ scalars, c₄.HasSlot r := fun r hr =>
      (h₂.trans (h₃.trans h₄)).extension.hasSlot (hs₁.1.offers.slots r hr)
    exact reads_joinMembers hs₄.1.orderly.plain (reads_append hscalars htexts harrays hs₄.2 hslots
      (hr₂.extend h₂.plain (h₃.trans h₄).extension) (hr₃.extend h₃.plain h₄.extension) hr₄)
      (((hscalars.append htexts).append harrays).append hs₄.2) (by decide)

theorem reads_arrayNodes (name : String) :
    (array : Option ArrayShape) → (∀ a, array = some a → a.items.Seen) → {b : Draft} →
      b.Orderly marked → Lowers b (arrayNodes name array) fun c rs =>
        c.Reads rs (.ofArrays array)
  | none, _, b, hb => lowers_pure hb.plain (reads_nil rfl rfl rfl)
  | some ⟨samples, items⟩, hseen, b, hb => by
    rw [arrayNodes]
    refine (reads_placeNode (name ++ "Element") items (hseen _ rfl) hb).bind fun r c hc hr => ?_
    have hlowers : Lowers c (internPlain (.array r)) _ :=
      lowers_intern hc.plain (List.forall_mem_singleton.2 hr.1) (by simp [Node.kind]) among_empty
    refine hlowers.bind fun s c' hc' hs => lowers_pure hc'.plain (reads_array ?_ hs)
    rw [partsAt, hc'.extension.node?_eq hc.plain hr.1]
    exact hr.2.extend hc.plain hc'.extension

theorem reads_objectNodes (name : String) :
    (object : Option ObjectShape) → (∀ o, object = some o → ∀ f ∈ o.fields, f.shape.Seen) →
      {b : Draft} → b.Orderly marked → Lowers b (objectNodes name object) fun c rs =>
        c.Reads rs (.ofObjects object)
  | none, _, b, hb => lowers_pure hb.plain (reads_nil rfl rfl rfl)
  | some ⟨seen, fields⟩, hseen, b, hb => by
    rw [objectNodes]
    refine (reads_fieldProperties seen fields (hseen _ rfl) hb).bind
      fun properties c hc hproperties => ?_
    refine (lowers_lift hc.plain classAttributes_ends).bind ?_
    rintro attributes c - ⟨rfl, hattributes⟩
    have hlowers : Lowers c (intern (.object properties) attributes none) _ :=
      lowers_intern hc.plain hproperties.hasSlot (by simp [Node.kind]) hattributes
    exact hlowers.bind fun r c' hc' hr =>
      lowers_pure hc'.plain (reads_object (hproperties.extend hc.plain hc') hr)

theorem reads_fieldProperties (seen : Nat) :
    (fields : List FieldShape) → (∀ f ∈ fields, f.shape.Seen) → {b : Draft} → b.Orderly marked →
      Lowers b (fieldProperties seen fields) fun c properties => ReadsFields c seen properties fields
  | [], _, b, hb => lowers_pure hb.plain .nil
  | ⟨key, presentIn, shape⟩ :: rest, hseen, b, hb => by
    rw [fieldProperties]
    have hshape : shape.Seen := hseen _ List.mem_cons_self
    refine ((orders_placeNode (pascalCase key) shape hshape hb).and
      (reads_placeNode (pascalCase key) shape hshape hb)).bind fun r c hc ⟨ho, hr⟩ => ?_
    refine (reads_fieldProperties seen rest (fun f hf => hseen f (List.mem_cons_of_mem _ hf))
      ho.orderly).bind fun properties c' hc' hrest => ?_
    refine lowers_pure hc'.plain (.cons ⟨rfl, hc'.extension.hasSlot hr.1, ?_⟩ hrest)
    rw [partsAt, hc'.extension.node?_eq hc.plain hr.1]
    exact hr.2.extend hc.plain hc'.extension

end

end Build

/-! ### The graph of samples -/

namespace Draft

variable {b : Draft} {shapes : List (String × Shape)} {marked : Bool}

/-- The roots are read as their shapes. -/
def ReadsRoots (b : Draft) (shapes : List (String × Shape)) : Prop :=
  ∀ e ∈ shapes, ∃ r, b.roots.find? e.1 = some r ∧ b.Reads (partsAt b.node? r) e.2

/-- Placing one more root. -/
theorem ReadsRoots.placeRoot_ends {root : String} {shape : Shape} (h : b.ReadsRoots shapes)
    (hrooted : b.Rooted shapes) (hb : b.Orderly marked) (hseen : shape.Seen)
    (hroot : root ∉ shapes.map Prod.fst) :
    Ends (Samples.placeRoot root shape b) (fun _ => False) fun out =>
      out.2.ReadsRoots (shapes ++ [(root, shape)]) := by
  obtain ⟨hfree, hfree'⟩ := hrooted.find?_eq_none hroot
  refine (Build.placeRoot_ends (Build.reads_placeNode root shape hseen hb) (fun c r hr => hr.1)
    hfree hfree').mono ?_
  rintro ⟨-, _⟩ ⟨c, r, rootAttributes, hc, ⟨-, hr⟩, rfl, -⟩ e he
  rcases List.mem_append.1 he with he | he
  · obtain ⟨s, hs, hreads⟩ := h e he
    refine ⟨s, OrderedMap.find?_insert_of_find? (hc.roots ▸ hfree) (hc.roots ▸ hs), ?_⟩
    change ({ c with roots := _, store := _ } : Draft).Reads (partsAt c.node? s) e.2
    have hslot : b.HasSlot s :=
      hrooted.slots (e.1, s) (OrderedMap.find?_eq_some_iff.1 hs)
    rw [partsAt, hc.extension.node?_eq hb.plain hslot]
    have hextend := hreads.extend hb.plain hc.extension
    exact ⟨hextend.slots, hextend.reads⟩
  · obtain rfl := List.mem_singleton.1 he
    refine ⟨r, ?_, hr.slots, hr.reads⟩
    change (c.roots.insert root r).find? root = some r
    rw [OrderedMap.find?_insert, if_pos rfl]

end Draft

/-- The properties of the class in a graph, from a root on to the end of a path. -/
def Generation.propertiesAt (g : Generation) (root : String) (path : List Access) : List Property :=
  (g.roots.find? root).elim [] fun r => propertiesAlong g.node? path (partsAt g.node? r)

/-- The node for strings in a graph, from a root on at the end of a path. -/
def Generation.stringsAt (g : Generation) (root : String) (path : List Access) : Option Node :=
  (g.roots.find? root).elim none fun r => stringsAlong g.node? path (partsAt g.node? r)

namespace Samples

/-- **The graph of samples is read as the samples**, along all paths. -/
theorem build_reads (samples : List (String × Json)) (options : Options) :
    Ends ((ofList samples).build options) (fun _ => False) fun g => ∀ root path,
      ((g.propertiesAt root path).map Property.mark, g.stringsAt root path) =
        (marksAt path (valuesUnder root samples),
          nodeOfTexts (textsAt path (valuesUnder root samples))) := by
  have hstep : ∀ e ∈ (ofList samples).roots.entries, ∀ (b : Draft) shapes,
      (b.Rooted shapes ∧ b.Arranged options) ∧ b.ReadsRoots shapes → e.1 ∉ shapes.map Prod.fst →
        Ends (placeRoot e.1 e.2 b) (fun _ => False) fun out =>
          (out.2.Rooted (shapes ++ [e]) ∧ out.2.Arranged options) ∧
            out.2.ReadsRoots (shapes ++ [e]) := by
    intro e he b shapes ⟨⟨hrooted, harranged⟩, hreads⟩ hroot
    have hseen := seen_of_mem_entries he
    have harranges := harranged.placeRoot_ends hrooted hseen hroot
    have hreads' := hreads.placeRoot_ends hrooted harranged.orderly hseen hroot
    exact ((hrooted.placeRoot_ends hroot).and (harranges.mono_bad fun _ => False.elim)).and
      (hreads'.mono_bad fun _ => False.elim)
  have hplaced := Draft.placeRoots_ends (ofList samples).roots.entries hstep
    ⟨⟨Draft.rooted_initial options, Draft.arranged_initial⟩, nofun⟩ (ofList samples).roots.nodup
  refine Ends.bind hplaced fun out ⟨⟨hrooted, _⟩, hreads⟩ => hrooted.ofDraft_ends.mono
    fun g hg root path => ?_
  have hkeys : g.roots.keys = firstSeen samples := by
    rw [hg.roots, hrooted.names, List.nil_append, entries_ofList, List.map_map]
    exact List.map_id _
  by_cases hroot : root ∈ firstSeen samples
  · have hmem : (root, Shape.ofValues (valuesUnder root samples)) ∈
        (ofList samples).roots.entries := entries_ofList ▸ List.mem_map_of_mem hroot
    obtain ⟨r, hr, hr'⟩ := hreads _ hmem
    rw [Generation.propertiesAt, Generation.stringsAt, hg.roots, hr, funext hg.node?]
    exact (hr'.reads path).trans (Shape.readAlong_ofValues path)
  · have hnone : g.roots.find? root = none := OrderedMap.find?_eq_none_iff.2 (hkeys ▸ hroot)
    rw [Generation.propertiesAt, Generation.stringsAt, hnone, valuesUnder_eq_nil_iff.2 hroot,
      marksAt_of_isEmpty, textsAt_of_isEmpty]
    rfl

/-- **The graph of samples has the keys of the samples**, along all paths, and in the order in which
they are first seen there; those are optional that come up less often than there are objects. -/
theorem build_marksAt (samples : List (String × Json)) (options : Options) :
    Ends ((ofList samples).build options) (fun _ => False) fun g =>
      ∀ root path, (g.propertiesAt root path).map Property.mark =
        marksAt path (valuesUnder root samples) :=
  (build_reads samples options).mono fun _ hg root path => congrArg Prod.fst (hg root path)

/-- In particular it has their names. -/
theorem build_keysAt (samples : List (String × Json)) (options : Options) :
    Ends ((ofList samples).build options) (fun _ => False) fun g =>
      ∀ root path, (g.propertiesAt root path).map Property.name =
        keysAt path (valuesUnder root samples) :=
  (build_marksAt samples options).mono fun g hg root path => by
    rw [← map_fst_marksAt, ← hg, List.map_map]
    rfl

/-- **It has the node for the strings of the samples**, along all paths. -/
theorem build_stringsAt (samples : List (String × Json)) (options : Options) :
    Ends ((ofList samples).build options) (fun _ => False) fun g =>
      ∀ root path, g.stringsAt root path = nodeOfTexts (textsAt path (valuesUnder root samples)) :=
  (build_reads samples options).mono fun _ hg root path => congrArg Prod.snd (hg root path)

end Samples

end SchemaGraph
