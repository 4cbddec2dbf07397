import SchemaGraph.Proofs.IdentityTexts
import SchemaGraph.Proofs.Ingestion
import SchemaGraph.Proofs.ShapeReference

/-!
# The normal form of sampled graphs

The graph of samples needs no clearing up (`SchemaGraph.Samples.build_normal`). Every node can be
reached, children are stored before their parents, no two nodes are equal, and there are no intersections
(`SchemaGraph.Generation.Tidy`); and a union has at least two members of different kinds, none of which
is a union itself or lets everything in (`SchemaGraph.Generation.Normal`).

Most of this holds of the draft all along, since each node is stored once its children are there and
only if there is none like it (`SchemaGraph.Draft.Orderly`). For unions it comes from the way a place
is taken apart: each part gives nodes for one sort of value (`SchemaGraph.ValueSort`), and no sort
comes up twice. And what a place adds to the draft is below the node of the place
(`SchemaGraph.Draft.Offers`).
-/

namespace SchemaGraph

/-! ### Sorts of values -/

/-- The sorts of value that are told apart at a place. -/
inductive ValueSort
  | null
  | bool
  | number
  | string
  | array
  | object
deriving DecidableEq

/-- The sort of the values of a kind, for kinds that have values of one sort only. -/
def NodeKind.sort? : NodeKind → Option ValueSort
  | primitive .null => some .null
  | primitive .bool => some .bool
  | primitive .integer | primitive .double => some .number
  | primitive .none | primitive .any => none
  | primitive _ => some .string
  | enum => some .string
  | array => some .array
  | map | object => some .object
  | union | intersection => none

/-- The sort of the values of the node at a reference. -/
def sortAt (node? : Nat → Option Node) (r : Ref) : Option ValueSort :=
  (node? r.index).bind fun node => node.kind.sort?

section Sorts

variable {node? node?' : Nat → Option Node} {rs members : List Ref} {sorts sorts' : List ValueSort}

/-- The references are to nodes of some of these sorts, in their order and each once. -/
def OfSorts (node? : Nat → Option Node) (sorts : List ValueSort) (rs : List Ref) : Prop :=
  (rs.map (sortAt node?)).Sublist (sorts.map some)

/-- What the members of a union are like: there are several, their kinds are different, and none is a
union or lets everything in. -/
structure Mixed (node? : Nat → Option Node) (members : List Ref) : Prop where
  several : 2 ≤ members.length
  apart : ∀ r ∈ members, ∀ s ∈ members, ∀ n m, node? r.index = some n → node? s.index = some m →
    n.kind = m.kind → r = s
  single : ∀ r ∈ members, ∀ n, node? r.index = some n → n.kind ≠ .union ∧ n.kind ≠ .primitive .any

theorem OfSorts.append {rs' : List Ref} (h : OfSorts node? sorts rs) (h' : OfSorts node? sorts' rs') :
    OfSorts node? (sorts ++ sorts') (rs ++ rs') := by
  rw [OfSorts, List.map_append, List.map_append]
  exact List.Sublist.append h h'

theorem OfSorts.congr (h : OfSorts node? sorts rs) (hsame : ∀ r ∈ rs, node?' r.index = node? r.index) :
    OfSorts node?' sorts rs := by
  rw [OfSorts, List.map_congr_left fun r hr => show sortAt node?' r = sortAt node? r by
    rw [sortAt, sortAt, hsame r hr]]
  exact h

/-- References to nodes of different sorts are to different kinds of node. -/
theorem OfSorts.mixed (h : OfSorts node? sorts rs) (hnd : sorts.Nodup)
    (hmem : ∀ r ∈ members, r ∈ rs) (hseveral : 2 ≤ members.length) : Mixed node? members where
  several := hseveral
  apart r hr s hs n m hn hm hkind := by
    have hinj : (rs.map (sortAt node?)).Nodup := h.nodup (hnd.map (Option.some_injective _))
    refine List.inj_on_of_nodup_map hinj (hmem r hr) (hmem s hs) ?_
    rw [sortAt, sortAt, hn, hm, Option.bind_some, Option.bind_some, hkind]
  single r hr n hn := by
    obtain ⟨sort, -, hsort⟩ := List.mem_map.1 (h.subset (List.mem_map_of_mem (hmem r hr)))
    rw [sortAt, hn] at hsort
    constructor <;> intro hkind <;> simp [hkind, NodeKind.sort?] at hsort

theorem Mixed.congr (h : Mixed node? members)
    (hsame : ∀ r ∈ members, node?' r.index = node? r.index) : Mixed node?' members where
  several := h.several
  apart r hr s hs n m hn hm :=
    h.apart r hr s hs n m (hsame r hr ▸ hn) (hsame s hs ▸ hm)
  single r hr n hn := h.single r hr n (hsame r hr ▸ hn)

end Sorts

/-! ### Drafts in order -/

namespace Draft

variable {b c c' : Draft} {r s : Ref} {rs rs' : List Ref} {node : Node} {attributes : Attributes}
  {marked : Bool}

theorem Plain.exists_holds (hb : b.Plain) (hr : b.HasSlot r) : ∃ n, b.Holds r n := by
  obtain ⟨slot, hslot⟩ : ∃ slot, b.slots[r.index]? = some slot := ⟨_, Array.getElem?_eq_getElem hr.2⟩
  cases slot with
  | none => exact (hb.filled r ⟨hr.1, hslot⟩).elim
  | some n => exact ⟨n, hr.1, hslot⟩

/-- Nodes that are there stay what they are. -/
theorem Extends.node?_eq {filled : Ref → Prop} (h : b.Extends filled c) (hb : b.Plain)
    (hr : b.HasSlot r) : c.node? r.index = b.node? r.index := by
  obtain ⟨n, hn⟩ := hb.exists_holds hr
  rw [(h.holds hn).node?, hn.node?]

/-- Below some of the references. -/
inductive Under (node? : Nat → Option Node) (rs : List Ref) : Ref → Prop
  | top {r : Ref} (h : r ∈ rs) : Under node? rs r
  | child {r c : Ref} {node : Node} (h : Under node? rs r) (hn : node? r.index = some node)
      (hc : c ∈ node.children) : Under node? rs c

theorem Under.trans {node? : Nat → Option Node} (h : Under node? rs s)
    (hrs : ∀ r ∈ rs, Under node? rs' r) : Under node? rs' s := by
  induction h with
  | top h => exact hrs _ h
  | child _ hn hc ih => exact ih.child hn hc

theorem Under.mono {node? : Nat → Option Node} (h : Under node? rs s) (hsub : ∀ r ∈ rs, r ∈ rs') :
    Under node? rs' s :=
  h.trans fun r hr => .top (hsub r hr)

theorem Under.extend {filled : Ref → Prop} (h : Under b.node? rs s) (hc : b.Extends filled c) :
    Under c.node? rs s := by
  induction h with
  | top h => exact .top h
  | child _ hn hchild ih => exact ih.child (hc.holds (holds_of_node? hn)).node? hchild

/-- A draft in which each node was stored after its children and only if there was none like it. If
nodes are marked, each has one marker, which is its own index. -/
structure Orderly (b : Draft) (marked : Bool) : Prop where
  plain : b.Plain
  stamps : b.stamps = marked
  identified : ∀ {r n}, b.Holds r n → b.identities.find? (n, []) = some r
  canonical : ∀ {r n}, b.Holds r n → n.canonical .preserving false = n
  children_lt : ∀ {r n}, b.Holds r n → ∀ c ∈ n.children, c.index < r.index
  unions : ∀ {r members}, b.Holds r (.union members) → Mixed b.node? members.toList
  markers : ∀ {index}, index < b.size → ∀ marker,
    (b.store.atIndex index).Carries marker ↔ marked = true ∧ marker = index
  fresh : ∀ {index}, b.size ≤ index → b.store.atIndex index = ∅

/-- What was added to the draft is below the references, which have slots. -/
structure Offers (b c : Draft) (rs : List Ref) : Prop where
  slots : ∀ r ∈ rs, c.HasSlot r
  under : ∀ {s}, c.HasSlot s → b.HasSlot s ∨ Under c.node? rs s

theorem offers_nil : b.Offers b [] := ⟨nofun, .inl⟩

theorem Offers.append {filled : Ref → Prop} (h : b.Offers c rs) (h' : c.Offers c' rs')
    (hc : c.Extends filled c') : b.Offers c' (rs ++ rs') where
  slots r hr := (List.mem_append.1 hr).elim (fun hr => hc.hasSlot (h.slots r hr)) (h'.slots r)
  under hs := by
    rcases h'.under hs with hs | hs
    · exact (h.under hs).imp_right fun hs => (hs.extend hc).mono fun _ => List.mem_append_left _
    · exact .inr (hs.mono fun _ => List.mem_append_right _)

/-- What is above all that was offered is an offer itself. -/
theorem Offers.above {filled : Ref → Prop} (h : b.Offers c rs) (h' : c.Offers c' rs')
    (hc : c.Extends filled c') (hrs : ∀ r ∈ rs, Under c'.node? rs' r) : b.Offers c' rs' where
  slots := h'.slots
  under hs := by
    rcases h'.under hs with hs | hs
    · exact (h.under hs).imp_right fun hs => (hs.extend hc).trans hrs
    · exact .inr hs

theorem Offers.congr (h : b.Offers c rs) (hmem : ∀ r, r ∈ rs' ↔ r ∈ rs) : b.Offers c rs' where
  slots r hr := h.slots r ((hmem r).1 hr)
  under hs := (h.under hs).imp_right fun hs => hs.mono fun r hr => (hmem r).2 hr

/-! ### Storing a node -/

/-- Names and descriptions are no markers. -/
theorem not_carries_of_sampled {s : Attributes} (h : s.Among SampledKind) (marker : Nat) :
    ¬s.Carries marker := by
  rintro ⟨found, hfound, -⟩
  rcases h _ hfound with h | h <;> cases h

/-- What is merged with names and descriptions has the markers that it had. -/
theorem carries_combine_iff {s u : Attributes} (marker : Nat) (hs : s.Among OwnKind)
    (ha : attributes.Among OwnKind) (hu : s.combine attributes = .ok u) :
    u.Carries marker ↔ s.Carries marker ∨ attributes.Carries marker := by
  have hsole : ∀ {s : Attributes}, s.Among OwnKind → s.Among (Sole .provenance) :=
    fun hs a h => unitesMarkers_ownKind _ (hs a h)
  exact Attributes.lists_combine AttributeKind.unites_own.2.2 (hsole hs) (hsole ha) hu

theorem among_marker {marker : Nat} :
    (Attributes.singleton .provenance (.singleton marker)).Among OwnKind := by
  intro a ha
  obtain rfl := List.mem_singleton.1 ha
  exact .inr (.inr rfl)

theorem carries_marker_iff {marker k : Nat} :
    (Attributes.singleton .provenance (.singleton k)).Carries marker ↔ marker = k := by
  constructor
  · rintro ⟨found, hfound, hmem⟩
    obtain rfl := eq_of_heq (Attribute.mk.inj (List.mem_singleton.1 hfound)).2.2
    exact List.mem_singleton.1 hmem
  · rintro rfl
    exact ⟨_, List.mem_singleton_self _, List.mem_singleton_self _⟩

/-- The attributes of a new node: nothing is carried but its own marker. -/
theorem markers_of_founds {store : AttributeStore} {stamps : Bool} (hb : b.store.Among OwnKind)
    (hfresh : b.store.atIndex b.size = ∅) (ha : attributes.Among SampledKind)
    (h : b.store.Founds stamps b.nextRef attributes store) :
    (∀ index ≠ b.size, store.atIndex index = b.store.atIndex index) ∧
      ∀ marker, (store.atIndex b.size).Carries marker ↔ stamps = true ∧ marker = b.size := by
  obtain ⟨mid, hadd, hstamp⟩ := h
  have hmid := AttributeStore.writes_of_add hadd
  have hown : attributes.Among OwnKind := fun a h => (ha a h).own
  have hhere : mid.atIndex b.size = attributes := by
    have hcombine := hmid.here
    rw [show b.nextRef.index = b.size from rfl, hfresh, Attributes.combine_empty_left] at hcombine
    exact (Except.ok.inj hcombine).symm
  cases stamps with
  | false =>
    obtain rfl : store = mid := hstamp
    refine ⟨hmid.elsewhere, fun marker => iff_of_false ?_ nofun⟩
    rw [hhere]
    exact not_carries_of_sampled ha marker
  | true =>
    have hstamped := AttributeStore.writes_of_add hstamp
    refine ⟨fun index hindex => ?_, fun marker => ?_⟩
    · rw [hstamped.elsewhere index hindex, hmid.elsewhere index hindex]
    · have hmark := carries_combine_iff marker (hmid.among hb hown b.size) among_marker
        hstamped.here
      rw [show b.nextRef.index = b.size from rfl, hhere, carries_marker_iff] at hmark
      rw [hmark, or_iff_right (not_carries_of_sampled ha marker), and_iff_right rfl]

namespace Orderly

variable {store : AttributeStore} (hb : b.Orderly marked) (ha : attributes.Among SampledKind)

include hb ha

/-- Attributes that are added to a node leave all markers where they are. -/
theorem markers_of_add (hr : b.HasSlot r) (h : b.store.add r attributes = .ok store) :
    (∀ index < b.size, ∀ marker,
      (store.atIndex index).Carries marker ↔ marked = true ∧ marker = index) ∧
      ∀ index, b.size ≤ index → store.atIndex index = ∅ := by
  have hwrites := AttributeStore.writes_of_add h
  refine ⟨fun index hindex marker => ?_, fun index hindex => ?_⟩
  · by_cases heq : index = r.index
    · subst heq
      have hcarries := carries_combine_iff marker (hb.plain.among r.index)
        (fun a h => (ha a h).own) hwrites.here
      exact hcarries.trans
        ((or_iff_left (not_carries_of_sampled ha marker)).trans (hb.markers hindex marker))
    · rw [hwrites.elsewhere index heq]
      exact hb.markers hindex marker
  · have hne : index ≠ r.index := fun heq =>
      Nat.lt_irrefl _ (Nat.lt_of_lt_of_le hr.2 (heq ▸ hindex))
    rw [hwrites.elsewhere index hne]
    exact hb.fresh hindex

omit ha in
/-- Unions have the members that they had. -/
theorem unions_congr {members : SortedSet Ref} {filled : Ref → Prop} (hc : b.Extends filled c)
    (hr : b.Holds r (.union members)) : Mixed c.node? members.toList :=
  (hb.unions hr).congr fun s hs => hc.node?_eq hb.plain (hb.plain.children hr s hs)

/-- A node that is known takes the attributes. -/
theorem of_shared (hr : b.HasSlot r) (h : b.store.add r attributes = .ok store)
    (hgains : b.Gains { b with store }) :
    ({ b with store } : Draft).Orderly marked ∧ b.Offers { b with store } [r] := by
  have hserial := (AttributeStore.writes_of_add h).serial
  have hholds : ∀ {r n}, Holds { b with store } r n → b.Holds r n := fun h =>
    ⟨h.1.trans hserial, h.2⟩
  obtain ⟨hmarkers, hfresh⟩ := hb.markers_of_add ha hr h
  refine ⟨{
    plain := hgains.plain
    stamps := hb.stamps
    identified := fun h => hb.identified (hholds h)
    canonical := fun h => hb.canonical (hholds h)
    children_lt := fun h => hb.children_lt (hholds h)
    unions := fun h => hb.unions_congr hgains.extension (hholds h)
    markers := hmarkers _
    fresh := hfresh _ }, ?_, fun hs => .inl ⟨hs.1.trans hserial, hs.2⟩⟩
  exact List.forall_mem_singleton.2 (hgains.extension.hasSlot hr)

/-- A node that is not known is stored after all others. -/
theorem of_stored (hchildren : ∀ c ∈ node.children, b.HasSlot c)
    (hcanonical : node.canonical .preserving false = node)
    (hunion : ∀ members, node = .union members → Mixed b.node? members.toList)
    (hid : b.identities.find? (node, []) = none)
    (h : b.store.Founds b.stamps b.nextRef attributes store)
    (hc : c = { b with
      slots := b.slots.push (some node)
      identities := b.identities.insert (node, []) b.nextRef
      store }) (hgains : b.Gains c) :
    c.Orderly marked ∧ b.Offers c [b.nextRef] := by
  have hserial : c.store.serial = b.store.serial := hc ▸ h.serial
  have hsize : c.size = b.size + 1 := by rw [hc, Draft.size, Array.size_push, Draft.size]
  have hholds : ∀ {r n}, c.Holds r n → b.Holds r n ∨ (r = b.nextRef ∧ n = node) := fun hr =>
    ((holds_push_iff h.serial).1 (hc ▸ hr)).imp_right fun h => ⟨h.1, (Option.some.inj h.2).symm⟩
  obtain ⟨helsewhere, hhere⟩ : (∀ index ≠ b.size, c.store.atIndex index = b.store.atIndex index) ∧
      ∀ marker, (c.store.atIndex b.size).Carries marker ↔ b.stamps = true ∧ marker = b.size :=
    hc ▸ markers_of_founds hb.plain.among (hb.fresh (Nat.le_refl _)) ha h
  refine ⟨{
    plain := hgains.plain
    stamps := (congrArg Draft.stamps hc).trans hb.stamps
    identified := fun {r n} hr => ?identified
    canonical := fun {r n} hr => ?canonical
    children_lt := fun {r n} hr child hchild => ?children
    unions := fun {r members} hr => ?unions
    markers := fun {index} hindex marker => ?markers
    fresh := fun {index} hindex => ?fresh }, ?slots, fun {s} hs => ?under⟩
  case identified =>
    subst hc
    rw [OrderedMap.find?_insert]
    rcases hholds hr with hr | ⟨rfl, rfl⟩
    · -- an old node is not this one, which was not known
      have hne : (node, []) ≠ (n, ([] : List (String × String))) := fun heq => by
        have hknown := hb.identified hr
        rw [← heq, hid] at hknown
        cases hknown
      rw [if_neg hne]
      exact hb.identified hr
    · exact if_pos rfl
  case canonical =>
    rcases hholds hr with hr | ⟨-, rfl⟩
    · exact hb.canonical hr
    · exact hcanonical
  case children =>
    rcases hholds hr with hr | ⟨rfl, rfl⟩
    · exact hb.children_lt hr child hchild
    · exact (hchildren child hchild).2
  case unions =>
    rcases hholds hr with hr | ⟨rfl, heq⟩
    · exact hb.unions_congr hgains.extension hr
    · exact (hunion members heq.symm).congr fun s hs =>
        hgains.extension.node?_eq hb.plain (hchildren s (heq ▸ hs))
  case markers =>
    rw [hsize, Nat.lt_succ_iff_lt_or_eq] at hindex
    rcases hindex with hlt | rfl
    · rw [helsewhere index (Nat.ne_of_lt hlt)]
      exact hb.markers hlt marker
    · rw [hhere, hb.stamps]
  case fresh =>
    have hlt : b.size < index := by rwa [hsize] at hindex
    rw [helsewhere index (Nat.ne_of_gt hlt)]
    exact hb.fresh (Nat.le_of_lt hlt)
  case slots =>
    exact List.forall_mem_singleton.2 ⟨hserial.symm, hsize ▸ Nat.lt_succ_self b.size⟩
  case under =>
    have hlt : s.index < b.size + 1 := hsize ▸ hs.2
    refine (Nat.lt_succ_iff_lt_or_eq.1 hlt).imp (fun hlt => ⟨hs.1.trans hserial, hlt⟩) fun heq => ?_
    exact .top (List.mem_singleton.2 (Ref.ext (hs.1.trans hserial) heq))

/-- **Storing a node keeps a draft in order**, and adds no other node. -/
theorem of_interned (hchildren : ∀ c ∈ node.children, b.HasSlot c)
    (hcanonical : node.canonical .preserving false = node)
    (hunion : ∀ members, node = .union members → Mixed b.node? members.toList)
    (hgains : b.Gains c) (h : Interned b node attributes none r c) :
    c.Orderly marked ∧ b.Offers c [r] := by
  have htexts : attributes.identityTexts = [] :=
    Attributes.identityTexts_eq_nil fun a h => (ha a h).own
  cases h with
  | shared hid hstore => exact hb.of_shared ha (hb.plain.indexed hid).hasSlot hstore hgains
  | stored hid hstore =>
    rw [htexts] at hid hgains ⊢
    exact hb.of_stored ha hchildren hcanonical hunion hid hstore rfl hgains

end Orderly

theorem orderly_initial {options : Options} : (initial options).Orderly options.trackProvenance where
  plain := plain_initial
  stamps := rfl
  identified h := by simpa [initial, ofGeneration] using h.2
  canonical h := by simpa [initial, ofGeneration] using h.2
  children_lt h := by simpa [initial, ofGeneration] using h.2
  unions h := by simpa [initial, ofGeneration] using h.2
  markers h := by simp [initial, ofGeneration, Draft.size] at h
  fresh _ := rfl

end Draft

/-! ### Shapes of values -/

namespace Shape

/-- The shape of some values. -/
def Seen (s : Shape) : Prop := ∃ values, s = ofValues values

variable {null bool integer real : Bool} {strings : Option StringShape} {array : Option ArrayShape}
  {object : Option ObjectShape}

/-- The parts of the shape of some values are shapes of what is in them. -/
theorem Seen.parts (h : Seen ⟨null, bool, integer, real, strings, array, object⟩) :
    (∀ s, strings = some s → ∃ texts, s = .ofTexts texts) ∧
      (∀ a, array = some a → a.items.Seen) ∧
        ∀ o, object = some o → ∀ f ∈ o.fields, f.shape.Seen := by
  obtain ⟨values, h⟩ := h
  rw [ofValues_eq] at h
  obtain ⟨-, -, -, -, rfl, rfl, rfl⟩ := Shape.mk.inj h
  refine ⟨fun s hs => ?_, fun a ha => ?_, fun o ho f hf => ?_⟩
  · split at hs
    · cases hs
    · exact ⟨_, (Option.some.inj hs).symm⟩
  · split at ha
    · cases ha
    · exact ⟨_, congrArg ArrayShape.items (Option.some.inj ha).symm⟩
  · split at ho
    · cases ho
    · obtain rfl := Option.some.inj ho
      obtain ⟨key, -, rfl⟩ := List.mem_map.1 hf
      exact ⟨_, rfl⟩

end Shape

/-- The kind of some texts is a kind of strings. -/
theorem StringShape.sort?_kind_ofTexts {texts : List String} :
    (NodeKind.primitive (ofTexts texts).kind).sort? = some .string := by
  rw [StringShape.kind]
  split
  · next only honly =>
    have hmem : only ∈ (ofTexts texts).kinds := by rw [SortedSet.mem_def, honly]; simp
    obtain ⟨text, -, rfl⟩ := mem_kinds_ofTexts.1 hmem
    rw [Literal.classify]
    split_ifs <;> rfl
  · rfl

/-! ### Lowering -/

namespace Build

variable {b b' c : Draft} {name : String} {node : Node} {attributes : Attributes} {marked : Bool}
  {r : Ref} {rs rs' : List Ref} {sorts sorts' : List ValueSort}

/-- The draft is in order, and has nothing that was not in `b` or is below the references. -/
structure Placed (b c : Draft) (marked : Bool) (rs : List Ref) : Prop where
  orderly : c.Orderly marked
  offers : b.Offers c rs

theorem Placed.append (h : Placed b b' marked rs) (h' : Placed b' c marked rs') (hc : b'.Gains c) :
    Placed b c marked (rs ++ rs') :=
  ⟨h'.orderly, h.offers.append h'.offers hc.extension⟩

theorem Placed.hasSlot (h : Placed b c marked [r]) : c.HasSlot r := h.offers.slots r (by simp)

/-- What was placed keeps its sorts when more is placed. -/
theorem Placed.ofSorts_extend (h : Placed b b' marked rs) (hsorts : OfSorts b'.node? sorts rs)
    (hc : b'.Gains c) : OfSorts c.node? sorts rs :=
  hsorts.congr fun r hr => hc.extension.node?_eq h.orderly.plain (h.offers.slots r hr)

/-- **A node whose children have slots is stored in order.** -/
theorem orders_intern (hb : b.Orderly marked) (hchildren : ∀ c ∈ node.children, b.HasSlot c)
    (hkind : node.kind ≠ .intersection)
    (hunion : ∀ members, node = .union members → Mixed b.node? members.toList)
    (ha : attributes.Among SampledKind) :
    Lowers b (intern node attributes none) fun c r =>
      Placed b c marked [r] ∧ c.Holds r (node.canonical .preserving false) := by
  refine Ends.mono (lowers_intern hb.plain hchildren hkind ha).with_eq ?_
  rintro ⟨r, c⟩ ⟨hrun, hgains, hholds⟩
  have hinterned := interned_of_intern hrun
  rw [hb.plain.mapping, hb.plain.alphabetize] at hinterned
  obtain ⟨horderly, hoffers⟩ := hb.of_interned ha
    (fun c hc => hchildren c (Node.mem_children_canonical.1 hc)) Node.canonical_canonical
    (fun members heq => hunion members (Node.canonical_eq_union_iff.1 heq)) hgains hinterned
  exact ⟨hgains, ⟨horderly, hoffers⟩, hholds⟩

/-- A node above all that was placed so far. -/
theorem orders_above (h : Placed b b' marked rs) (hchildren : ∀ c, c ∈ node.children ↔ c ∈ rs)
    (hkind : node.kind ≠ .intersection)
    (hunion : ∀ members, node = .union members → Mixed b'.node? members.toList)
    (ha : attributes.Among SampledKind) :
    Lowers b' (intern node attributes none) fun c r =>
      Placed b c marked [r] ∧ sortAt c.node? r = node.kind.sort? := by
  refine (orders_intern h.orderly (fun c hc => h.offers.slots c ((hchildren c).1 hc)) hkind hunion
    ha).mono fun r c hc hr => ⟨⟨hr.1.orderly, ?_⟩, ?_⟩
  · refine h.offers.above hr.1.offers hc.extension fun child hchild => ?_
    refine .child (.top (List.mem_singleton_self r)) hr.2.node? ?_
    exact Node.mem_children_canonical.2 ((hchildren child).2 hchild)
  · rw [sortAt, hr.2.node?, Option.bind_some, Node.kind_canonical_preserving]

/-- A node without children. -/
theorem orders_leaf (hb : b.Orderly marked) (hchildren : node.children = [])
    (hkind : node.kind ≠ .intersection ∧ node.kind ≠ .union) (ha : attributes.Among SampledKind) :
    Lowers b (intern node attributes none) fun c r =>
      Placed b c marked [r] ∧ sortAt c.node? r = node.kind.sort? :=
  orders_above ⟨hb, Draft.offers_nil⟩ (fun c => by rw [hchildren]) hkind.1
    (fun _ heq => (hkind.2 (congrArg Node.kind heq)).elim) ha

theorem ofSorts_singleton {sort : ValueSort} (h : sortAt c.node? r = some sort) :
    OfSorts c.node? [sort] [r] := by
  rw [OfSorts, List.map_singleton, h]
  exact List.Sublist.refl _

/-- Nodes of kinds, in their order. -/
theorem orders_kinds {kinds : List PrimitiveKind} (hb : b.Orderly marked) :
    Lowers b (kinds.mapM fun kind => internPlain (.primitive kind)) fun c rs =>
      Placed b c marked rs ∧
        rs.map (sortAt c.node?) = kinds.map fun kind => (NodeKind.primitive kind).sort? := by
  induction kinds generalizing b with
  | nil => exact lowers_pure hb.plain ⟨⟨hb, Draft.offers_nil⟩, rfl⟩
  | cons kind rest ih =>
    rw [List.mapM_cons]
    have hfirst : Lowers b (internPlain (.primitive kind)) _ :=
      orders_leaf hb rfl (by simp [Node.kind]) among_empty
    refine hfirst.bind fun r c hc hr => ?_
    refine (ih hr.1.orderly).bind fun rs c' hc' hrs => ?_
    refine lowers_pure hc'.plain ⟨hr.1.append hrs.1 hc', ?_⟩
    rw [List.map_cons, List.map_cons, hrs.2, sortAt,
      hc'.extension.node?_eq hr.1.orderly.plain hr.1.hasSlot]
    exact congrArg (· :: _) hr.2

/-- The node of a place, whose parts are of different sorts. -/
theorem orders_joinMembers (h : Placed b b' marked rs) (hsorts : OfSorts b'.node? sorts rs)
    (hnd : sorts.Nodup) :
    Lowers b' (joinMembers name rs) fun c r => Placed b c marked [r] := by
  have hmem : ∀ r, r ∈ (SortedSet.ofList rs).toList ↔ r ∈ rs := fun r => SortedSet.mem_toList_ofList
  unfold joinMembers
  dsimp only
  split
  · next hnil =>
    have hrs : ∀ r, r ∉ rs := fun r => by rw [← hmem, hnil]; simp
    have hlowers : Lowers b' (internPlain (.primitive .any)) _ :=
      orders_above h (fun c => by simp [Node.children, hrs]) (by simp [Node.kind]) (by simp) among_empty
    exact hlowers.mono fun r c _ hr => hr.1
  · next only honly =>
    refine lowers_pure h.orderly.plain ⟨h.orderly, h.offers.congr fun r => ?_⟩
    rw [← hmem, honly]
  · next hnil honly =>
    have hseveral : 2 ≤ (SortedSet.ofList rs).toList.length := by
      rcases hlist : (SortedSet.ofList rs).toList with _ | ⟨only, _ | _⟩
      · exact absurd hlist hnil
      · exact absurd hlist (honly only)
      · simp
    have hmixed : ∀ members, Node.union (.ofList rs) = .union members →
        Mixed b'.node? members.toList := by
      rintro members ⟨⟩
      exact hsorts.mixed hnd (fun r hr => (hmem r).1 hr) hseveral
    have hlowers : Lowers b' (intern (.union (.ofList rs)) (nameAttribute name) none) _ :=
      orders_above h hmem (by simp [Node.kind]) hmixed among_nameAttribute
    exact hlowers.mono fun r c _ hr => hr.1

theorem orders_scalarNodes {null bool integer real : Bool} (hb : b.Orderly marked) :
    Lowers b (scalarNodes null bool integer real) fun c rs =>
      Placed b c marked rs ∧ OfSorts c.node? [.null, .bool, .number] rs := by
  refine (orders_kinds hb).mono fun rs c _ hrs => ⟨hrs.1, ?_⟩
  rw [OfSorts, hrs.2]
  cases null <;> cases bool <;> cases integer <;> cases real <;> decide

theorem orders_stringNodes {strings : Option StringShape} (hb : b.Orderly marked)
    (hseen : ∀ s, strings = some s → ∃ texts, s = .ofTexts texts) :
    Lowers b (stringNodes name strings) fun c rs =>
      Placed b c marked rs ∧ OfSorts c.node? [.string] rs := by
  cases strings with
  | none => exact lowers_pure hb.plain ⟨⟨hb, Draft.offers_nil⟩, List.nil_sublist _⟩
  | some s =>
    obtain ⟨texts, rfl⟩ := hseen s rfl
    rw [stringNodes]
    cases (StringShape.ofTexts texts).closedLabels? with
    | some cases =>
      have hlowers : Lowers b (internNamed name (.enum cases)) _ :=
        orders_leaf hb rfl (by simp [Node.kind]) among_nameAttribute
      exact hlowers.bind fun r c hc hr => lowers_pure hc.plain ⟨hr.1, ofSorts_singleton hr.2⟩
    | none =>
      have hlowers : Lowers b (internPlain (.primitive (StringShape.ofTexts texts).kind)) _ :=
        orders_leaf hb rfl (by simp [Node.kind]) among_empty
      exact hlowers.bind fun r c hc hr => lowers_pure hc.plain
        ⟨hr.1, ofSorts_singleton (hr.2.trans StringShape.sort?_kind_ofTexts)⟩

mutual

/-- **The node of a place, in an orderly draft**: all that was added is below it. -/
theorem orders_placeNode (name : String) :
    (s : Shape) → s.Seen → {b : Draft} → b.Orderly marked →
      Lowers b (placeNode name s) fun c r => Placed b c marked [r]
  | ⟨null, bool, integer, real, strings, array, object⟩, hseen, b, hb => by
    obtain ⟨hstrings, harray, hobject⟩ := hseen.parts
    rw [placeNode]
    refine (orders_scalarNodes hb).bind fun scalars c₁ h₁ hs₁ => ?_
    refine (orders_stringNodes hs₁.1.orderly hstrings).bind fun strings c₂ h₂ hs₂ => ?_
    refine (orders_arrayNodes name array harray hs₂.1.orderly).bind fun arrays c₃ h₃ hs₃ => ?_
    refine (orders_objectNodes name object hobject hs₃.1.orderly).bind fun objects c₄ h₄ hs₄ => ?_
    have hsorts := (((hs₁.1.ofSorts_extend hs₁.2 (h₂.trans (h₃.trans h₄))).append
      (hs₂.1.ofSorts_extend hs₂.2 (h₃.trans h₄))).append (hs₃.1.ofSorts_extend hs₃.2 h₄)).append
      hs₄.2
    exact orders_joinMembers (((hs₁.1.append hs₂.1 h₂).append hs₃.1 h₃).append hs₄.1 h₄) hsorts
      (by decide)

theorem orders_arrayNodes (name : String) :
    (array : Option ArrayShape) → (∀ a, array = some a → a.items.Seen) → {b : Draft} →
      b.Orderly marked → Lowers b (arrayNodes name array) fun c rs =>
        Placed b c marked rs ∧ OfSorts c.node? [.array] rs
  | none, _, b, hb => lowers_pure hb.plain ⟨⟨hb, Draft.offers_nil⟩, List.nil_sublist _⟩
  | some ⟨samples, items⟩, hseen, b, hb => by
    rw [arrayNodes]
    refine (orders_placeNode (name ++ "Element") items (hseen _ rfl) hb).bind fun r c hc hr => ?_
    have hlowers : Lowers c (internPlain (.array r)) _ :=
      orders_above hr (fun _ => Iff.rfl) (by simp [Node.kind]) (by simp) among_empty
    exact hlowers.bind fun s c' hc' hs => lowers_pure hc'.plain ⟨hs.1, ofSorts_singleton hs.2⟩

theorem orders_objectNodes (name : String) :
    (object : Option ObjectShape) → (∀ o, object = some o → ∀ f ∈ o.fields, f.shape.Seen) →
      {b : Draft} → b.Orderly marked → Lowers b (objectNodes name object) fun c rs =>
        Placed b c marked rs ∧ OfSorts c.node? [.object] rs
  | none, _, b, hb => lowers_pure hb.plain ⟨⟨hb, Draft.offers_nil⟩, List.nil_sublist _⟩
  | some ⟨seen, fields⟩, hseen, b, hb => by
    rw [objectNodes]
    refine (orders_fieldProperties seen fields (hseen _ rfl) hb).bind
      fun properties c hc hproperties => ?_
    refine (lowers_lift hc.plain classAttributes_ends).bind ?_
    rintro attributes c - ⟨rfl, hattributes⟩
    have hlowers : Lowers c (intern (.object properties) attributes none) _ :=
      orders_above hproperties (fun _ => Iff.rfl) (by simp [Node.kind]) nofun hattributes
    exact hlowers.bind fun r c' hc' hr => lowers_pure hc'.plain ⟨hr.1, ofSorts_singleton hr.2⟩

theorem orders_fieldProperties (seen : Nat) :
    (fields : List FieldShape) → (∀ f ∈ fields, f.shape.Seen) → {b : Draft} → b.Orderly marked →
      Lowers b (fieldProperties seen fields) fun c properties =>
        Placed b c marked (properties.map Property.type)
  | [], _, b, hb => lowers_pure hb.plain ⟨hb, Draft.offers_nil⟩
  | ⟨key, presentIn, shape⟩ :: rest, hseen, b, hb => by
    rw [fieldProperties]
    refine (orders_placeNode (pascalCase key) shape (hseen _ List.mem_cons_self) hb).bind
      fun r c hc hr => ?_
    refine (orders_fieldProperties seen rest (fun f hf => hseen f (List.mem_cons_of_mem _ hf))
      hr.orderly).bind fun properties c' hc' hrest => ?_
    exact lowers_pure hc'.plain (hr.append hrest hc')

end

end Build

/-! ### Roots -/

namespace Draft

variable {b : Draft} {shapes : List (String × Shape)} {options : Options}

/-- A first generation whose nodes are all below its roots. -/
structure Arranged (b : Draft) (options : Options) : Prop where
  orderly : b.Orderly options.trackProvenance
  serial : b.serial = 0
  options : b.options = options
  under : ∀ {s}, b.HasSlot s → Under b.node? b.roots.values s

theorem arranged_initial : (initial options).Arranged options where
  orderly := orderly_initial
  serial := rfl
  options := rfl
  under h := by simpa [initial, ofGeneration, Draft.size] using h.2

/-- Placing one more root. -/
theorem Arranged.placeRoot_ends {root : String} {shape : Shape} (h : b.Arranged options)
    (hrooted : b.Rooted shapes) (hseen : shape.Seen) (hroot : root ∉ shapes.map Prod.fst) :
    Ends (Samples.placeRoot root shape b) (fun _ => False) fun out => out.2.Arranged options := by
  obtain ⟨hfree, hfree'⟩ := hrooted.find?_eq_none hroot
  refine (Build.placeRoot_ends (Build.orders_placeNode root shape hseen h.orderly)
    (fun c r hr => hr.hasSlot) hfree hfree').mono ?_
  rintro ⟨-, _⟩ ⟨c, r, rootAttributes, hc, ⟨horderly, hoffers⟩, rfl, -⟩
  have hvalues : ∀ s, s ∈ (c.roots.insert root r).values ↔ s ∈ b.roots.values ∨ s = r := by
    intro s
    rw [OrderedMap.values, OrderedMap.entries_insert_of_find?_eq_none (hc.roots ▸ hfree),
      List.map_append, List.mem_append, hc.roots]
    simp [OrderedMap.values]
  refine ⟨⟨horderly.plain.bindRoots, horderly.stamps, horderly.identified, horderly.canonical,
    horderly.children_lt, horderly.unions, horderly.markers, horderly.fresh⟩,
    hc.extension.serial.trans h.serial,
    hc.extension.options.trans h.options, fun {s} hs => ?_⟩
  rcases hoffers.under hs with hs | hs
  · exact ((h.under hs).extend hc.extension).mono fun t ht => (hvalues t).2 (.inl ht)
  · exact hs.mono fun t ht => (hvalues t).2 (.inr (List.mem_singleton.1 ht))

end Draft

/-! ### The graph of samples -/

namespace Generation

variable {g : Generation} {b : Draft} {options : Options}

/-- A generation in which each node can be reached, comes after its children and is different from
all others, and no node is an intersection. -/
structure Tidy (g : Generation) : Prop where
  reaches : ∀ {r}, g.Owns r → g.Reaches r
  children_lt : ∀ {index c}, c ∈ g.childrenAt index → c.index < index
  noIntersections : ∀ {index n}, g.node? index = some n → n.kind ≠ .intersection
  distinct : ∀ {i j n}, g.node? i = some n → g.node? j = some n → i = j

/-- A generation in which nothing is left to be cleared up: moreover, unions are of different kinds of
node, and nodes are in canonical form. -/
structure Normal (g : Generation) : Prop extends g.Tidy where
  unions : ∀ {index members}, g.node? index = some (.union members) →
    Mixed g.node? members.toList
  canonical : ∀ {index n}, g.node? index = some n → n.canonical .preserving false = n

/-- The attributes of a first generation: the library's own, and if provenance is tracked, each node
has one marker, which is its index. -/
structure FirstMarked (g : Generation) : Prop where
  serial : g.serial = 0
  among : g.store.Among OwnKind
  markers : ∀ {r}, g.Owns r → ∀ marker,
    (g.store.atIndex r.index).Carries marker ↔ g.options.trackProvenance = true ∧ marker = r.index

theorem normal_of_arranged (hb : b.Arranged options) (hg : b.BecomesGeneration g) : g.Normal := by
  have hserial : g.serial = b.serial := congrArg AttributeStore.serial hg.store
  have hholds : ∀ {index n}, g.node? index = some n → b.Holds ⟨b.serial, index⟩ n := fun hn =>
    Draft.holds_of_node? ((hg.node? _).symm.trans hn)
  have hsame : g.node? = b.node? := funext hg.node?
  refine ⟨⟨fun {r} hr => ?_, fun {index c} hc => ?_, fun hn => ?_, fun {i j n} hi hj => ?_⟩,
    fun {index members} hn => ?_, fun hn => hb.orderly.canonical (hholds hn)⟩
  · obtain ⟨n, hn⟩ := hr.exists_node
    have hslot : b.HasSlot r := ⟨hr.1.trans hserial, (hholds hn).hasSlot.2⟩
    have hunder := hb.under hslot
    clear hr hn hslot
    induction hunder with
    | top h =>
      obtain ⟨e, he, rfl⟩ := List.mem_map.1 (hg.roots ▸ h)
      exact .root he
    | child _ hn hc ih => exact ih.child ((hg.node? _).trans hn) hc
  · rw [childrenAt] at hc
    split at hc
    · next n hn => exact hb.orderly.children_lt (hholds hn) c hc
    · cases hc
  · exact hb.orderly.plain.noIntersections (hholds hn)
  · have hi' := hb.orderly.identified (hholds hi)
    rw [hb.orderly.identified (hholds hj)] at hi'
    exact (congrArg Ref.index (Option.some.inj hi')).symm
  · rw [hsame]
    exact hb.orderly.unions (hholds hn)

theorem firstMarked_of_arranged (hb : b.Arranged options) (hg : b.BecomesGeneration g) :
    g.FirstMarked := by
  have hserial : g.serial = b.serial := congrArg AttributeStore.serial hg.store
  refine ⟨hserial.trans hb.serial, hg.store ▸ hb.orderly.plain.among, fun {r} hr marker => ?_⟩
  obtain ⟨n, hn⟩ := hr.exists_node
  have hslot := (Draft.holds_of_node? ((hg.node? _).symm.trans hn)).hasSlot
  rw [hg.store, hg.options, hb.options]
  exact hb.orderly.markers hslot.2 marker

end Generation

namespace Samples

variable {samples : List (String × Json)}

theorem seen_of_mem_entries {e : String × Shape} (h : e ∈ (ofList samples).roots.entries) :
    e.2.Seen := by
  rw [entries_ofList] at h
  obtain ⟨root, -, rfl⟩ := List.mem_map.1 h
  exact ⟨_, rfl⟩

/-- **The graph of samples is in normal form.** -/
theorem build_normal (samples : List (String × Json)) (options : Options) :
    Ends ((ofList samples).build options) (fun _ => False) fun g =>
      g.Normal ∧ g.FirstMarked ∧ g.options = options := by
  have hstep : ∀ e ∈ (ofList samples).roots.entries, ∀ (b : Draft) shapes,
      b.Rooted shapes ∧ b.Arranged options → e.1 ∉ shapes.map Prod.fst →
        Ends (placeRoot e.1 e.2 b) (fun _ => False) fun out =>
          out.2.Rooted (shapes ++ [e]) ∧ out.2.Arranged options :=
    fun e he b shapes h hroot => (h.1.placeRoot_ends hroot).and
      ((h.2.placeRoot_ends h.1 (seen_of_mem_entries he) hroot).mono_bad fun _ => False.elim)
  have hplaced := Draft.placeRoots_ends (ofList samples).roots.entries hstep
    ⟨Draft.rooted_initial options, Draft.arranged_initial⟩ (ofList samples).roots.nodup
  refine Ends.bind hplaced fun out hout => hout.1.ofDraft_ends.mono fun g hg => ?_
  exact ⟨Generation.normal_of_arranged hout.2 hg, Generation.firstMarked_of_arranged hout.2 hg,
    hg.options.trans hout.2.options⟩

end Samples

end SchemaGraph
