import SchemaGraph.Proofs.DraftGrowth
import SchemaGraph.Proofs.Observation
import SchemaGraph.Proofs.Rebuild.Kinds

/-!
# Lowering shapes

Lowering a shape into nodes never fails, and everything that the shape covers conforms to the node
it gets (`SchemaGraph.Build.lowers_placeNode`). Nodes that are stored later change nothing about
that, because no slot is ever given another node.

While shapes are lowered the draft is as plain as can be: every slot is filled as soon as it is
there, no node is an intersection, and the kinds of attributes are the library's own
(`SchemaGraph.Draft.Plain`). Storing a node keeps this (`SchemaGraph.Build.lowers_intern`), and each
part of the lowering is a sequence of such steps.
-/

namespace SchemaGraph

/-! ### Drafts that are filled -/

namespace Draft

variable {b c : Draft} {r : Ref} {node : Node} {value : Json} {covered covered' : Json → Prop}
  {rs rs' : List Ref}

/-- Every slot is filled, no node is an intersection, and kinds and order are kept. -/
structure Plain (b : Draft) : Prop where
  mapping : b.mapping = .preserving
  alphabetize : b.alphabetize = false
  filled : ∀ r, ¬b.IsEmptyAt r
  children : ∀ {r node}, b.Holds r node → ∀ c ∈ node.children, b.HasSlot c
  noIntersections : ∀ {r node}, b.Holds r node → node.kind ≠ .intersection
  indexed : b.Indexed
  among : b.store.Among OwnKind

/-- The draft `c` is `b` with more nodes and attributes. -/
structure Gains (b c : Draft) : Prop where
  plain : c.Plain
  extension : b.Extends (fun _ => False) c
  roots : c.roots = b.roots
  rootAttributes : c.store.roots = b.store.roots

theorem Plain.gains_refl (h : b.Plain) : b.Gains b := ⟨h, .refl b, rfl, rfl⟩

theorem Gains.trans {b' : Draft} (h : b.Gains c) (h' : c.Gains b') : b.Gains b' where
  plain := h'.plain
  extension := h.extension.trans h'.extension
  roots := h'.roots.trans h.roots
  rootAttributes := h'.rootAttributes.trans h.rootAttributes

/-- A stored node is in the draft, which stays plain if the node fits it. -/
theorem Plain.gains_of_interned {attributes : Attributes} (hb : b.Plain)
    (hchildren : ∀ c ∈ node.children, b.HasSlot c) (hkind : node.kind ≠ .intersection)
    (hinterned : Interned b node attributes none r c) (hamong : c.store.Among OwnKind) :
    b.Gains c ∧ c.Holds r node := by
  have hextends : b.Extends (fun _ => False) c := hinterned.extends.1.mono fun _ h => nomatch h
  cases hinterned with
  | shared hid hstore =>
    have hwrites := AttributeStore.writes_of_add hstore
    have hholds : ∀ {r node}, Holds { b with store := _ } r node → b.Holds r node := fun h =>
      ⟨h.1.trans hwrites.serial, h.2⟩
    refine ⟨⟨⟨hb.mapping, hb.alphabetize, fun r hr => hb.filled r ⟨hr.1.trans hwrites.serial, hr.2⟩,
      fun hr c hc => hextends.hasSlot (hb.children (hholds hr) c hc),
      fun hr => hb.noIntersections (hholds hr), hextends.indexed hb.indexed, hamong⟩, hextends, rfl,
      hwrites.roots⟩, hextends.holds (hb.indexed hid)⟩
  | @stored store hid hstore =>
    have hserial := hstore.serial
    -- whatever the draft holds was there before, or is the node
    have hold : ∀ {r n}, Holds { b with slots := b.slots.push (some node), store } r n →
        b.Holds r n ∨ n = node := fun hr =>
      ((holds_push_iff hserial).1 hr).imp_right fun h => (Option.some.inj h.2).symm
    refine ⟨⟨⟨hb.mapping, hb.alphabetize, fun r hr => ?_, fun {r n} hr c hc => ?_, fun {r n} hr => ?_,
      hextends.indexed hb.indexed, hamong⟩, hextends, rfl, hstore.roots⟩,
      (holds_push_iff hserial).2 (.inr ⟨rfl, rfl⟩)⟩
    · rcases (isEmptyAt_push_iff hserial).1 hr with hr | ⟨-, hnot⟩
      · exact hb.filled r hr
      · cases hnot
    · rcases hold hr with hr | rfl
      · exact hextends.hasSlot (hb.children hr c hc)
      · exact hextends.hasSlot (hchildren c hc)
    · rcases hold hr with hr | rfl
      · exact hb.noIntersections hr
      · exact hkind

theorem Holds.node? (h : b.Holds r node) : b.node? r.index = some node := by
  rw [Draft.node?, h.2]
  rfl

theorem holds_of_node? {index : Nat} (h : b.node? index = some node) :
    b.Holds ⟨b.serial, index⟩ node := by
  rw [Draft.node?, Option.join_eq_some_iff] at h
  exact ⟨rfl, h⟩

theorem Extends.conforms {filled : Ref → Prop} (h : b.Extends filled c)
    (hv : Conforms b.node? value r) : Conforms c.node? value r :=
  hv.mono fun hn => (h.holds (holds_of_node? hn)).node?

/-- The references have slots, and every covered value conforms to one of them. -/
structure Places (b : Draft) (covered : Json → Prop) (rs : List Ref) : Prop where
  slots : ∀ r ∈ rs, b.HasSlot r
  conforms : ∀ v, covered v → ∃ r ∈ rs, Conforms b.node? v r

theorem Places.extend {filled : Ref → Prop} (h : b.Places covered rs) (hc : b.Extends filled c) :
    c.Places covered rs where
  slots r hr := hc.hasSlot (h.slots r hr)
  conforms v hv := by
    obtain ⟨r, hr, hconforms⟩ := h.conforms v hv
    exact ⟨r, hr, hc.conforms hconforms⟩

theorem Places.mono (h : b.Places covered rs) (himp : ∀ v, covered' v → covered v) :
    b.Places covered' rs :=
  ⟨h.slots, fun v hv => h.conforms v (himp v hv)⟩

theorem Places.append (h : b.Places covered rs) (h' : b.Places covered' rs') :
    b.Places (fun v => covered v ∨ covered' v) (rs ++ rs') where
  slots r hr := (List.mem_append.1 hr).elim (h.slots r) (h'.slots r)
  conforms v hv := by
    rcases hv with hv | hv
    · obtain ⟨r, hr, hconforms⟩ := h.conforms v hv
      exact ⟨r, List.mem_append_left _ hr, hconforms⟩
    · obtain ⟨r, hr, hconforms⟩ := h'.conforms v hv
      exact ⟨r, List.mem_append_right _ hr, hconforms⟩

theorem places_nil (h : ∀ v, ¬covered v) : b.Places covered [] :=
  ⟨nofun, fun v hv => absurd hv (h v)⟩

/-- What a node that is stored lets in. -/
theorem Holds.places (h : b.Holds r node) (hconforms : ∀ v, covered v → Conforms b.node? v r) :
    b.Places covered [r] where
  slots := List.forall_mem_singleton.2 h.hasSlot
  conforms v hv := ⟨r, by simp, hconforms v hv⟩

theorem Places.conforms_of_singleton (h : b.Places covered [r]) (hv : covered value) :
    Conforms b.node? value r := by
  obtain ⟨s, hs, hconforms⟩ := h.conforms value hv
  exact List.mem_singleton.1 hs ▸ hconforms

theorem Places.hasSlot_of_singleton (h : b.Places covered [r]) : b.HasSlot r :=
  h.slots r (by simp)

/-- The properties stand for the fields of `seen` objects, each with a type for what its field
covers. -/
structure Declares (b : Draft) (seen : Nat) (fields : List FieldShape)
    (properties : List Property) : Prop where
  names : properties.map Property.name = fields.map FieldShape.key
  fields : ∀ p ∈ properties, ∃ f ∈ fields, f.key = p.name ∧
    p.optional = decide (f.presentIn < seen) ∧ b.Places f.shape.Covers [p.type]

theorem plain_initial {options : Options} : (initial options).Plain where
  mapping := rfl
  alphabetize := rfl
  filled r h := by simpa [initial, ofGeneration] using h.2
  children h := by simpa [initial, ofGeneration] using h.2
  noIntersections h := by simpa [initial, ofGeneration] using h.2
  indexed h := by simp [initial, ofGeneration, EmptyCollection.emptyCollection] at h
  among := AttributeStore.among_empty

end Draft

/-! ### Attributes -/

/-- The kind is one that the nodes of samples are given: names and descriptions. -/
def SampledKind (k : AnyKind) : Prop := k = ⟨.candidates, .names⟩ ∨ k = ⟨.labels, .description⟩

theorem SampledKind.own {k : AnyKind} (h : SampledKind k) : OwnKind k := h.imp_right .inl

theorem oneType_sampledKind : OneType SampledKind := by
  obtain ⟨type, hnames, hprovenance, htype⟩ := oneType_ownKind
  exact ⟨type, hnames, hprovenance, fun k hk => htype k hk.own⟩

theorem among_empty : (∅ : Attributes).Among SampledKind := nofun

theorem among_nameAttribute {name : String} : (nameAttribute name).Among SampledKind := by
  intro a ha
  obtain rfl := List.mem_singleton.1 ha
  exact .inl rfl

theorem classAttributes_ends {name : String} {seen : Nat} :
    Ends (classAttributes name seen) (fun _ => False) fun s => s.Among SampledKind := by
  rw [classAttributes]
  split
  · exact (Attributes.merge_ends among_nameAttribute (.inr rfl)).mono_bad
      fun _ hnot => hnot oneType_sampledKind
  · exact among_nameAttribute

namespace Build

variable {α β : Type} {b c : Draft} {node : Node} {attributes : Attributes} {name : String}
  {r : Ref} {rs : List Ref} {covered : Json → Prop}

/-! ### Storing a node -/

/-- The action ends well in the draft, and only adds to it. -/
def Lowers (b : Draft) (x : Build α) (post : Draft → α → Prop) : Prop :=
  Ends (x b) (fun _ => False) fun out => b.Gains out.2 ∧ post out.2 out.1

theorem lowers_pure {post : Draft → α → Prop} {a : α} (hb : b.Plain) (h : post b a) :
    Lowers b (pure a : Build α) post :=
  ⟨hb.gains_refl, h⟩

theorem Lowers.bind {post : Draft → α → Prop} {post' : Draft → β → Prop} {x : Build α}
    {k : α → Build β} (h : Lowers b x post)
    (hk : ∀ a c, b.Gains c → post c a → Lowers c (k a) post') : Lowers b (x >>= k) post' :=
  ends_bind h fun a c ⟨hgains, hpost⟩ =>
    (hk a c hgains hpost).mono fun _ hout => ⟨hgains.trans hout.1, hout.2⟩

theorem Lowers.mono {post post' : Draft → α → Prop} {x : Build α} (h : Lowers b x post)
    (himp : ∀ a c, b.Gains c → post c a → post' c a) : Lowers b x post' :=
  Ends.mono h fun out hout => ⟨hout.1, himp out.1 out.2 hout.1 hout.2⟩

/-- A value, or a fault. -/
theorem lowers_lift {x : Except Fault α} {good : α → Prop} (hb : b.Plain)
    (h : Ends x (fun _ => False) good) : Lowers b (liftM x : Build α) fun c a => c = b ∧ good a := by
  cases x with
  | error f => exact h
  | ok a => exact ⟨hb.gains_refl, rfl, h⟩

theorem addAttributes_ends (hr : r.serial = b.serial) (hb : b.store.Among OwnKind)
    (ha : attributes.Among OwnKind) :
    Ends (addAttributes r attributes b) (fun _ => False) fun out =>
      out.2.serial = b.serial ∧ out.2.store.Among OwnKind := by
  rw [addAttributes_eq]
  refine Ends.map (((AttributeStore.add_ends hr hb ha).mono_bad fun _ hnot =>
    hnot oneType_ownKind).mono fun store hstore => ?_)
  exact ⟨hstore.serial, hstore.among hb ha⟩

/-- A node whose children have slots is stored without a fault. -/
theorem intern_ends (hb : b.Plain) (hchildren : ∀ c ∈ node.children, b.HasSlot c)
    (ha : attributes.Among OwnKind) :
    Ends (intern node attributes none b) (fun _ => False) fun _ => True := by
  have hcanonical := Draft.canonical_eq_ok hchildren
  rw [intern]
  rw [bind_eq (a := b) (c := b) rfl, bind_eq (c := b) (by rw [hcanonical]; rfl)]
  cases hid : b.identities.find?
      (node.canonical b.mapping b.alphabetize, attributes.identityTexts) with
  | some known =>
    exact ends_bind (addAttributes_ends (hb.indexed hid).1 hb.among ha) fun _ _ _ => trivial
  | none =>
    dsimp only
    have hempty : ({ b with slots := b.slots.push none } : Draft).IsEmptyAt b.nextRef :=
      (Draft.isEmptyAt_push_iff rfl).2 (.inr ⟨rfl, rfl⟩)
    rw [bind_eq (a := b.nextRef) (c := { b with slots := b.slots.push none }) rfl,
      bind_eq (fill_eq hempty), Draft.setIfInBounds_push_nextRef, bind_eq (a := ()) rfl]
    refine ends_bind (addAttributes_ends (r := b.nextRef) rfl hb.among ha) fun _ c hc => ?_
    cases b.stamps with
    | false => trivial
    | true =>
      have hmarker : (Attributes.singleton .provenance (.singleton b.nextRef.index)).Among
          OwnKind := by
        intro a ha
        obtain rfl := List.mem_singleton.1 ha
        exact .inr (.inr rfl)
      have hserial : b.nextRef.serial = c.serial := hc.1.symm
      exact ends_bind (addAttributes_ends hserial hc.2 hmarker) fun _ _ _ => trivial

/-- **Storing a node keeps the draft plain**, and the node is there in canonical form. -/
theorem lowers_intern (hb : b.Plain) (hchildren : ∀ c ∈ node.children, b.HasSlot c)
    (hkind : node.kind ≠ .intersection) (ha : attributes.Among SampledKind) :
    Lowers b (intern node attributes none) fun c r =>
      c.Holds r (node.canonical .preserving false) := by
  have hown : attributes.Among OwnKind := fun a h => (ha a h).own
  have hends : Ends (intern node attributes none b) (fun _ => False) fun out =>
      out.2.store.Among OwnKind := by
    refine ((intern_ends hb hchildren hown).and ?_).mono fun _ h => h.2
    exact keepsAmong_intern (.inr (.inr rfl)) hown b hb.among
  refine hends.with_eq.mono ?_
  rintro ⟨r, c⟩ ⟨hrun, hamong⟩
  have hinterned := interned_of_intern hrun
  rw [hb.mapping, hb.alphabetize] at hinterned
  refine hb.gains_of_interned (fun c hc => ?_) ?_ hinterned hamong
  · exact hchildren c (Node.mem_children_canonical.1 hc)
  · rwa [Ne, Node.kind_canonical_eq_intersection_iff]

/-! ### Places -/

/-- A node of a kind. -/
theorem lowers_kind {kind : PrimitiveKind} (hb : b.Plain) :
    Lowers b (internPlain (.primitive kind)) fun c r =>
      c.Places (fun v => kind.accepts v = true) [r] := by
  refine (lowers_intern hb (by simp [Node.children]) (by simp [Node.kind]) among_empty).mono
    fun r c _ hr => ?_
  rw [Node.canonical, StringMapping.apply_preserving] at hr
  exact hr.places fun v hv => .primitive hr.node? hv

theorem lowers_kinds {kinds : List PrimitiveKind} (hb : b.Plain) :
    Lowers b (kinds.mapM fun kind => internPlain (.primitive kind)) fun c rs =>
      c.Places (fun v => ∃ kind ∈ kinds, kind.accepts v = true) rs := by
  induction kinds generalizing b with
  | nil => exact lowers_pure hb (Draft.places_nil (by simp))
  | cons kind rest ih =>
    rw [List.mapM_cons]
    refine (lowers_kind hb).bind fun r c hc hr => ?_
    refine (ih hc.plain).bind fun rs c' hc' hrs => ?_
    refine lowers_pure hc'.plain (((hr.extend hc'.extension).append hrs).mono fun v hv => ?_)
    simpa using hv

/-- The node of a place where every covered value has a node. -/
theorem lowers_joinMembers (hb : b.Plain) (hrs : b.Places covered rs) :
    Lowers b (joinMembers name rs) fun c r => c.Places covered [r] := by
  have hmem : ∀ r, r ∈ (SortedSet.ofList rs).toList ↔ r ∈ rs := fun r => SortedSet.mem_toList_ofList
  unfold joinMembers
  dsimp only
  split
  · next hnil =>
    refine (lowers_kind hb).mono fun r c _ hr => hr.mono fun v hv => ?_
    obtain ⟨s, hs, -⟩ := hrs.conforms v hv
    simp [← hmem, hnil] at hs
  · next only honly =>
    have honly' : ∀ r, r ∈ rs ↔ r = only := fun r => by rw [← hmem, honly, List.mem_singleton]
    refine lowers_pure hb ⟨fun r hr => hrs.slots r ((honly' r).2 (List.mem_singleton.1 hr)), ?_⟩
    intro v hv
    obtain ⟨r, hr, hconforms⟩ := hrs.conforms v hv
    exact ⟨r, List.mem_singleton.2 ((honly' r).1 hr), hconforms⟩
  · have hchildren : ∀ c ∈ (Node.union (.ofList rs)).children, b.HasSlot c := fun c hc =>
      hrs.slots c ((hmem c).1 hc)
    refine (lowers_intern hb hchildren (by simp [Node.kind]) among_nameAttribute).mono
      fun r c hc hr => hr.places fun v hv => ?_
    obtain ⟨s, hs, hconforms⟩ := hrs.conforms v hv
    exact .union hr.node? ((hmem s).2 hs) (hc.extension.conforms hconforms)

end Build

/-! ### Parts of a shape -/

namespace Shape

/-- The shape of the scalars that are no strings. -/
def ofScalars (null bool integer real : Bool) : Shape := ⟨null, bool, integer, real, none, none, none⟩

/-- The shape of the strings alone. -/
def ofStrings (strings : Option StringShape) : Shape := { empty with strings }

/-- The shape of the arrays alone. -/
def ofArrays (array : Option ArrayShape) : Shape := { empty with array }

/-- The shape of the objects alone. -/
def ofObjects (object : Option ObjectShape) : Shape := { empty with object }

variable {strings : Option StringShape} {array : Option ArrayShape} {object : Option ObjectShape}
  {v : Json}

theorem exists_of_covers_ofStrings (h : (ofStrings strings).Covers v) :
    ∃ s text, strings = some s ∧ v = .string text ∧ s.Covers text := by
  cases h with
  | string h hs => exact ⟨_, _, h, rfl, hs⟩
  | null h | bool h | integer h | real h | array h _ | object h _ _ _ => cases h

theorem exists_of_covers_ofArrays (h : (ofArrays array).Covers v) :
    ∃ a items, array = some a ∧ v = .array items ∧ ∀ v ∈ items, a.items.Covers v := by
  cases h with
  | array h hitems => exact ⟨_, _, h, rfl, hitems⟩
  | null h | bool h | integer h | real h | string h _ | object h _ _ _ => cases h

theorem exists_of_covers_ofObjects (h : (ofObjects object).Covers v) :
    ∃ o members, object = some o ∧ v = .object members ∧
      (∀ m ∈ members, m.1 ∈ o.fields.map FieldShape.key) ∧
      (∀ f ∈ o.fields, o.seen ≤ f.presentIn → f.key ∈ members.map Prod.fst) ∧
      ∀ f ∈ o.fields, ∀ m ∈ members, m.1 = f.key → f.shape.Covers m.2 := by
  cases h with
  | object h known always values => exact ⟨_, _, h, rfl, known, always, values⟩
  | null h | bool h | integer h | real h | string h _ | array h _ => cases h

/-- What a shape covers is covered by one of its parts. -/
theorem Covers.parts {null bool integer real : Bool}
    (h : Covers ⟨null, bool, integer, real, strings, array, object⟩ v) :
    (((ofScalars null bool integer real).Covers v ∨ (ofStrings strings).Covers v) ∨
      (ofArrays array).Covers v) ∨ (ofObjects object).Covers v := by
  cases h with
  | null h => exact .inl (.inl (.inl (.null h)))
  | bool h => exact .inl (.inl (.inl (.bool h)))
  | integer h => exact .inl (.inl (.inl (.integer h)))
  | real h => exact .inl (.inl (.inl (.real h)))
  | string h hs => exact .inl (.inl (.inr (.string h hs)))
  | array h hitems => exact .inl (.inr (.array h hitems))
  | object h known always values => exact .inr (.object h known always values)

end Shape

namespace Build

variable {b c : Draft} {name : String}

theorem lowers_scalarNodes {null bool integer real : Bool} (hb : b.Plain) :
    Lowers b (scalarNodes null bool integer real) fun c rs =>
      c.Places (Shape.ofScalars null bool integer real).Covers rs := by
  refine (lowers_kinds hb).mono fun rs c _ hrs => hrs.mono fun v hv => ?_
  cases hv with
  | null h =>
    obtain rfl : null = true := h
    exact ⟨.null, by simp, rfl⟩
  | bool h =>
    obtain rfl : bool = true := h
    exact ⟨.bool, by simp, rfl⟩
  | integer h =>
    obtain rfl : integer = true := h
    -- an integer is a double where other numbers were seen
    cases real with
    | true => exact ⟨.double, by simp, rfl⟩
    | false => exact ⟨.integer, by simp, rfl⟩
  | real h =>
    obtain rfl : real = true := h
    exact ⟨.double, by simp, rfl⟩
  | string h _ | array h _ | object h _ _ _ => cases h

theorem lowers_stringNodes {strings : Option StringShape} (hb : b.Plain) :
    Lowers b (stringNodes name strings) fun c rs =>
      c.Places (Shape.ofStrings strings).Covers rs := by
  unfold stringNodes
  split
  · refine lowers_pure hb (Draft.places_nil fun v hv => ?_)
    obtain ⟨_, _, h, -⟩ := Shape.exists_of_covers_ofStrings hv
    cases h
  · next s =>
    have hcovers : ∀ v, (Shape.ofStrings (some s)).Covers v →
        ∃ text, v = .string text ∧ s.Covers text := by
      intro v hv
      obtain ⟨_, text, ⟨⟩, rfl, hs⟩ := Shape.exists_of_covers_ofStrings hv
      exact ⟨text, rfl, hs⟩
    split
    · next cases hcases =>
      have hlowers : Lowers b (internNamed name (.enum cases)) _ :=
        lowers_intern hb (by simp [Node.children]) (by simp [Node.kind]) among_nameAttribute
      refine hlowers.bind fun r c hc hr => lowers_pure hc.plain (hr.places fun v hv => ?_)
      obtain ⟨text, rfl, hs⟩ := hcovers v hv
      exact .enum hr.node? (List.mem_eraseDups.2 (hs.mem_closedLabels hcases))
    · refine (lowers_kind hb).bind fun r c hc hr => lowers_pure hc.plain (hr.mono fun v hv => ?_)
      obtain ⟨text, rfl, hs⟩ := hcovers v hv
      exact hs.accepts_kind

mutual

/-- **What a shape covers conforms to its node.** -/
theorem lowers_placeNode (name : String) :
    (s : Shape) → {b : Draft} → b.Plain →
      Lowers b (placeNode name s) fun c r => c.Places s.Covers [r]
  | ⟨null, bool, integer, real, strings, array, object⟩, b, hb => by
    rw [placeNode]
    refine (lowers_scalarNodes hb).bind fun scalars c₁ h₁ hscalars => ?_
    refine (lowers_stringNodes h₁.plain).bind fun strings c₂ h₂ hstrings => ?_
    refine (lowers_arrayNodes name array h₂.plain).bind fun arrays c₃ h₃ harrays => ?_
    refine (lowers_objectNodes name object h₃.plain).bind fun objects c₄ h₄ hobjects => ?_
    have hall := (((hscalars.extend (h₂.trans (h₃.trans h₄)).extension).append
      (hstrings.extend (h₃.trans h₄).extension)).append (harrays.extend h₄.extension)).append hobjects
    exact lowers_joinMembers h₄.plain (hall.mono fun _ => Shape.Covers.parts)

theorem lowers_arrayNodes (name : String) :
    (array : Option ArrayShape) → {b : Draft} → b.Plain →
      Lowers b (arrayNodes name array) fun c rs => c.Places (Shape.ofArrays array).Covers rs
  | none, b, hb => by
    refine lowers_pure hb (Draft.places_nil fun v hv => ?_)
    obtain ⟨_, _, h, -⟩ := Shape.exists_of_covers_ofArrays hv
    cases h
  | some ⟨samples, items⟩, b, hb => by
    rw [arrayNodes]
    refine (lowers_placeNode (name ++ "Element") items hb).bind fun r c hc hr => ?_
    have hlowers : Lowers c (internPlain (.array r)) _ :=
      lowers_intern hc.plain (List.forall_mem_singleton.2 hr.hasSlot_of_singleton) (by simp [Node.kind])
        among_empty
    refine hlowers.bind fun s c' hc' hs => lowers_pure hc'.plain (hs.places fun v hv => ?_)
    obtain ⟨_, items, ⟨⟩, rfl, hitems⟩ := Shape.exists_of_covers_ofArrays hv
    exact .array hs.node? fun v hv =>
      hc'.extension.conforms (hr.conforms_of_singleton (hitems v hv))

theorem lowers_objectNodes (name : String) :
    (object : Option ObjectShape) → {b : Draft} → b.Plain →
      Lowers b (objectNodes name object) fun c rs => c.Places (Shape.ofObjects object).Covers rs
  | none, b, hb => by
    refine lowers_pure hb (Draft.places_nil fun v hv => ?_)
    obtain ⟨_, _, h, -⟩ := Shape.exists_of_covers_ofObjects hv
    cases h
  | some ⟨seen, fields⟩, b, hb => by
    rw [objectNodes]
    refine (lowers_fieldProperties seen fields hb).bind fun properties c hc hproperties => ?_
    refine (lowers_lift hc.plain classAttributes_ends).bind fun attributes c₁ hc₁ ⟨_, hattributes⟩ => ?_
    have hchildren : ∀ child ∈ (Node.object properties).children, c₁.HasSlot child := by
      intro child hchild
      obtain ⟨p, hp, rfl⟩ := List.mem_map.1 hchild
      obtain ⟨f, -, -, -, hplaces⟩ := hproperties.fields p hp
      exact hc₁.extension.hasSlot hplaces.hasSlot_of_singleton
    refine (lowers_intern hc₁.plain hchildren (by simp [Node.kind]) hattributes).bind
      fun r c₂ hc₂ hr => lowers_pure hc₂.plain (hr.places fun v hv => ?_)
    obtain ⟨_, members, ⟨⟩, rfl, known, always, values⟩ := Shape.exists_of_covers_ofObjects hv
    refine .object hr.node? (fun m hm => hproperties.names ▸ known m hm) (fun p hp hpresent => ?_)
      fun p hp m hm hname => ?_
    · obtain ⟨f, hf, hkey, hoptional, -⟩ := hproperties.fields p hp
      rw [hoptional, decide_eq_false_iff_not, Nat.not_lt] at hpresent
      exact hkey ▸ always f hf hpresent
    · obtain ⟨f, hf, hkey, -, hplaces⟩ := hproperties.fields p hp
      exact (hc₁.trans hc₂).extension.conforms
        (hplaces.conforms_of_singleton (values f hf m hm (hname.trans hkey.symm)))

theorem lowers_fieldProperties (seen : Nat) :
    (fields : List FieldShape) → {b : Draft} → b.Plain →
      Lowers b (fieldProperties seen fields) fun c properties => c.Declares seen fields properties
  | [], b, hb => lowers_pure hb ⟨rfl, nofun⟩
  | ⟨key, presentIn, shape⟩ :: rest, b, hb => by
    rw [fieldProperties]
    refine (lowers_placeNode (pascalCase key) shape hb).bind fun r c hc hr => ?_
    refine (lowers_fieldProperties seen rest hc.plain).bind fun properties c' hc' hrest => ?_
    refine lowers_pure hc'.plain ⟨by simp [hrest.names], List.forall_mem_cons.2 ⟨?_, fun p hp => ?_⟩⟩
    · exact ⟨_, List.mem_cons_self, rfl, rfl, hr.extend hc'.extension⟩
    · obtain ⟨f, hf, hfield⟩ := hrest.fields p hp
      exact ⟨f, List.mem_cons_of_mem _ hf, hfield⟩

end

end Build

end SchemaGraph
