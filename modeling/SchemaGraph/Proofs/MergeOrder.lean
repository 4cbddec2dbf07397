import SchemaGraph.Proofs.InStep
import SchemaGraph.Proofs.MergingByName

/-!
# The order of merges

Attributes that are merged one after the other may come in any order, as far as a kind merges its values
in any order (`SchemaGraph.AttributeKind.Orderless`). The values of other kinds, the order of the names
and the rule of a name that has several kinds do depend on it. But whether the merge fails does not, nor
does the type that a name has in the end, and what is under the name of an orderless kind is the same
(`SchemaGraph.Attributes.foldlM_combine_concur`).
-/

namespace SchemaGraph

namespace SortedSet

variable {α : Type} [LT α] [DecidableLT α] [Trans (α := α) (· < ·) (· < ·) (· < ·)]
  [Std.Trichotomous (α := α) (· < ·)] {s t u : SortedSet α}

theorem union_comm (hirrefl : ∀ a : α, ¬ a < a) : s.union t = t.union s :=
  ext hirrefl fun a => by rw [mem_union, mem_union, or_comm]

theorem union_assoc (hirrefl : ∀ a : α, ¬ a < a) : (s.union t).union u = s.union (t.union u) :=
  ext hirrefl fun a => by rw [mem_union, mem_union, mem_union, mem_union, or_assoc]

end SortedSet

namespace AttributeKind

variable {t : ValueType} {kind : AttributeKind t}

/-- Values of the kind may be combined in any order. -/
structure Orderless (kind : AttributeKind t) : Prop where
  comm : ∀ a b, kind.combine a b = kind.combine b a
  assoc : ∀ a b c, kind.combine (kind.combine a b) c = kind.combine a (kind.combine b c)

/-- Kinds that unite sets are of this sort, if a value is known by its set. -/
theorem orderless_of_union {α : Type} [LT α] [DecidableLT α] [Trans (α := α) (· < ·) (· < ·) (· < ·)]
    [Std.Trichotomous (α := α) (· < ·)] (hirrefl : ∀ a : α, ¬ a < a) {set : t.Carrier → SortedSet α}
    (hset : Function.Injective set)
    (hunion : ∀ a b, set (kind.combine a b) = (set a).union (set b)) : kind.Orderless where
  comm a b := hset (by rw [hunion, hunion, SortedSet.union_comm hirrefl])
  assoc a b c := hset (by simp only [hunion, SortedSet.union_assoc hirrefl])

/-- The library's own kinds do. -/
theorem orderless_own : names.Orderless ∧ description.Orderless ∧ provenance.Orderless :=
  ⟨orderless_of_union String.lt_irrefl Function.injective_id fun _ _ => rfl,
    orderless_of_union String.lt_irrefl Function.injective_id fun _ _ => rfl,
    orderless_of_union Nat.lt_irrefl Function.injective_id fun _ _ => rfl⟩

theorem Orderless.right_comm (h : kind.Orderless) (a b c : t.Carrier) :
    kind.combine (kind.combine a b) c = kind.combine (kind.combine a c) b := by
  rw [h.assoc, h.comm b c, ← h.assoc]

end AttributeKind

/-- The kind is orderless, and no other one has its name. -/
def Settled (P : AnyKind → Prop) (name : String) : Prop :=
  ∃ (t : ValueType) (kind : AttributeKind t), kind.name = name ∧ kind.Orderless ∧ ∀ k, P k → Sole kind k

namespace Attributes

variable {P : AnyKind → Prop} {N : String → Prop} {s s' t t' u a b : Attributes} {name : String}

/-- Under each name, the two sets have values of one type, and for the names of `N` one attribute. -/
structure Alike (N : String → Prop) (s t : Attributes) : Prop where
  types : ∀ name, s.typeUnder name = t.typeUnder name
  values : ∀ name, N name → s.under name = t.under name

theorem Alike.refl (s : Attributes) : s.Alike N s := ⟨fun _ => rfl, fun _ _ => rfl⟩

theorem Alike.trans (h : s.Alike N t) (h' : t.Alike N u) : s.Alike N u :=
  ⟨fun name => (h.types name).trans (h'.types name), fun name hname =>
    (h.values name hname).trans (h'.values name hname)⟩

theorem Alike.typesAgree_iff (hs : s.Alike N s') (ht : t.Alike N t') :
    s.TypesAgree t ↔ s'.TypesAgree t' := by
  simp only [TypesAgree, hs.types, ht.types]

/-- **Merges of sets that are alike concur**, and are alike again. -/
theorem Alike.combine (hs : s.Alike N s') (ht : t.Alike N t') :
    Concur (fun _ _ => True) (Alike N) (s.combine t) (s'.combine t') := by
  have hother := combine_ends_joined (s := s') (t := t')
  rw [← hs.typesAgree_iff ht] at hother
  refine concur_of_ends (fun _ _ => trivial) combine_ends_joined hother fun u u' hu hu' => ⟨?_, ?_⟩
  · intro name
    have htype := (Attribute.join_ends.of_eq_ok (hu name)).1
    have htype' := (Attribute.join_ends.of_eq_ok (hu' name)).1
    calc u.typeUnder name = (s.typeUnder name).or (t.typeUnder name) := htype
      _ = (s'.typeUnder name).or (t'.typeUnder name) := by rw [hs.types, ht.types]
      _ = u'.typeUnder name := htype'.symm
  · intro name hname
    have hjoin := hu name
    rw [hs.values name hname, ht.values name hname, hu' name] at hjoin
    exact (Except.ok.inj hjoin).symm

/-- A kind can be read off both sets or off none. -/
theorem Alike.find? (h : s.Alike N t) {type : ValueType} {kind : AttributeKind type} :
    Concur (fun _ _ => True) (fun _ _ => True) (s.find? kind) (t.find? kind) := by
  have htype := h.types kind.name
  rw [typeUnder, typeUnder] at htype
  rw [find?_eq_under, find?_eq_under]
  cases hs : s.under kind.name <;> cases ht : t.under kind.name <;> rw [hs, ht] at htype
  case none.none => trivial
  case some.some a b =>
    have hread : ∀ c : Attribute, Ends (c.read kind) (fun _ => ¬c.type = type) fun _ =>
        c.type = type ∧ True := fun c => by
      rw [Attribute.read]
      split
      · next heq => exact ⟨heq, trivial⟩
      · next hne => exact hne
    have hother := hread b
    rw [show b.type = a.type from (Option.some.inj htype).symm] at hother
    exact (concur_of_ends (fun _ _ => trivial) (hread a) hother fun _ _ _ _ => trivial).map
  all_goals cases htype

/-! ### Two merges -/

/-- What is under the name of a kind that is alone under it. -/
theorem exists_under_eq_map {type : ValueType} {kind : AttributeKind type} (hs : s.Among (Sole kind)) :
    ∃ v : Option type.Carrier, s.under kind.name = v.map (Attribute.mk type kind) := by
  cases hunder : s.under kind.name with
  | none => exact ⟨none, rfl⟩
  | some a =>
    obtain ⟨ha, hname⟩ := under_eq_some_iff.1 hunder
    obtain ⟨value, rfl⟩ := Attribute.eq_of_sole (hs a ha) hname
    exact ⟨some value, rfl⟩

/-- Values of an orderless kind are joined in any order. -/
theorem join_join_comm {type : ValueType} {kind : AttributeKind type} (h : kind.Orderless)
    (v w x : Option type.Carrier) :
    (Attribute.join (v.map (Attribute.mk type kind)) (w.map (Attribute.mk type kind)) >>= fun z =>
        Attribute.join z (x.map (Attribute.mk type kind))) =
      Attribute.join (v.map (Attribute.mk type kind)) (x.map (Attribute.mk type kind)) >>= fun z =>
        Attribute.join z (w.map (Attribute.mk type kind)) := by
  cases v <;> cases w <;> cases x <;>
    simp only [Option.map_none, Option.map_some, Attribute.join_none_left, Attribute.join_none_right,
      Attribute.join_mk_mk, ok_bind]
  case none.some.some w x => rw [h.comm]
  case some.some.some v w x => rw [h.right_comm]

/-- The types of three sets do not clash. -/
def TypesFit (s a b : Attributes) : Prop := s.TypesAgree a ∧ s.TypesAgree b ∧ a.TypesAgree b

theorem TypesAgree.symm (h : s.TypesAgree t) : t.TypesAgree s :=
  fun name τ τ' hτ hτ' => (h name τ' τ hτ' hτ).symm

theorem TypesFit.swap (h : s.TypesFit a b) : s.TypesFit b a := ⟨h.2.1, h.1, h.2.2.symm⟩

theorem typesAgree_combine_iff (hu : s.combine a = .ok u) (hsa : s.TypesAgree a) :
    u.TypesAgree b ↔ s.TypesAgree b ∧ a.TypesAgree b := by
  have htype : ∀ name, u.typeUnder name = (s.typeUnder name).or (a.typeUnder name) :=
    fun name => typeUnder_combine hu
  constructor
  · intro h
    refine ⟨fun name τ τ' hτ => h name τ τ' (by rw [htype, hτ, Option.some_or]), ?_⟩
    intro name τ τ' hτ hτ'
    cases hs : s.typeUnder name with
    | none => exact h name τ τ' (by rw [htype, hs, hτ, Option.none_or]) hτ'
    | some σ =>
      obtain rfl := hsa name σ τ hs hτ
      exact h name τ τ' (by rw [htype, hs, Option.some_or]) hτ'
  · rintro ⟨hs, ha⟩ name τ τ' hτ
    rw [htype] at hτ
    rcases Option.or_eq_some_iff.1 hτ with hτ | ⟨-, hτ⟩
    · exact hs name τ τ' hτ
    · exact ha name τ τ' hτ

/-- Two merges in a row join what is under each name, and fail exactly if types clash. -/
theorem combine_combine_ends :
    Ends (s.combine a >>= fun u => u.combine b) (fun _ => ¬s.TypesFit a b) fun v =>
      s.TypesFit a b ∧ ∀ name, (Attribute.join (s.under name) (a.under name) >>= fun z =>
        Attribute.join z (b.under name)) = .ok (v.under name) := by
  refine (combine_ends_joined.with_eq.mono_bad fun _ hnot h => hnot h.1).bind ?_
  rintro u ⟨hu, hsa, hjoin⟩
  have hfit : u.TypesAgree b ↔ s.TypesFit a b :=
    (typesAgree_combine_iff hu hsa).trans (and_iff_right hsa).symm
  refine (combine_ends_joined.mono_bad fun _ hnot h => hnot (hfit.2 h)).mono ?_
  rintro v ⟨hub, hlast⟩
  refine ⟨hfit.1 hub, fun name => ?_⟩
  rw [hjoin name]
  exact hlast name

/-- The type of what is joined is that of the first value that is there. -/
theorem type_of_join_join {x y z found : Option Attribute}
    (h : (Attribute.join x y >>= fun u => Attribute.join u z) = .ok found) :
    found.map Attribute.type =
      ((x.map Attribute.type).or (y.map Attribute.type)).or (z.map Attribute.type) := by
  obtain ⟨u, hxy, h⟩ := exists_of_bind_eq_ok h
  rw [(Attribute.join_ends.of_eq_ok h).1, (Attribute.join_ends.of_eq_ok hxy).1]

/-- **Two merges may be done in either order**, as far as orderless kinds go. -/
theorem combine_combine_concur (hs : s.Among P) (ha : a.Among P) (hb : b.Among P) :
    Concur (fun _ _ => True) (Alike (Settled P)) (s.combine a >>= fun u => u.combine b)
      (s.combine b >>= fun u => u.combine a) := by
  have hother := combine_combine_ends (s := s) (a := b) (b := a)
  rw [show s.TypesFit b a ↔ s.TypesFit a b from ⟨.swap, .swap⟩] at hother
  -- whether it fails, the first or the second way, is a matter of types alone
  have hends := (combine_combine_ends (s := s) (a := a) (b := b)).mono fun v hv => And.intro hv.1 hv
  refine concur_of_ends (fun _ _ => trivial) hends hother fun v v' hv hv' => ⟨fun name => ?_, ?_⟩
  · have hswap : (a.typeUnder name).or (b.typeUnder name) = (b.typeUnder name).or (a.typeUnder name) := by
      cases hτ : a.typeUnder name <;> cases hτ' : b.typeUnder name
      case some.some τ τ' => rw [hv.1.2.2 name τ τ' hτ hτ']
      all_goals rfl
    calc v.typeUnder name = ((s.typeUnder name).or (a.typeUnder name)).or (b.typeUnder name) :=
          type_of_join_join (hv.2 name)
      _ = ((s.typeUnder name).or (b.typeUnder name)).or (a.typeUnder name) := by
          rw [Option.or_assoc, hswap, Option.or_assoc]
      _ = v'.typeUnder name := (type_of_join_join (hv' name)).symm
  · rintro _ ⟨type, kind, rfl, horderless, hsole⟩
    obtain ⟨x, hx⟩ := exists_under_eq_map fun c hc => hsole _ (hs c hc)
    obtain ⟨y, hy⟩ := exists_under_eq_map fun c hc => hsole _ (ha c hc)
    obtain ⟨z, hz⟩ := exists_under_eq_map fun c hc => hsole _ (hb c hc)
    have hjoin := hv.2 kind.name
    rw [hx, hy, hz, join_join_comm horderless, ← hx, ← hy, ← hz, hv' kind.name] at hjoin
    exact (Except.ok.inj hjoin).symm

/-! ### Many merges -/

/-- Sets that are alike are merged alike into by the sets of a list. -/
theorem Alike.foldlM (h : s.Alike N s') (sets : List Attributes) :
    Concur (fun _ _ => True) (Alike N) (sets.foldlM Attributes.combine s)
      (sets.foldlM Attributes.combine s') := by
  induction sets generalizing s s' with
  | nil => exact h
  | cons a rest ih =>
    rw [List.foldlM_cons, List.foldlM_cons]
    exact (h.combine (.refl a)).bind fun u u' hu => ih hu

/-- **The order of merges does not matter** for whether they fail, for types and for orderless kinds. -/
theorem foldlM_combine_concur {sets sets' : List Attributes} (h : sets.Perm sets')
    (hs : s.Among P) (hsets : ∀ a ∈ sets, Attributes.Among P a) :
    Concur (fun _ _ => True) (Alike (Settled P)) (sets.foldlM Attributes.combine s)
      (sets'.foldlM Attributes.combine s) := by
  induction h generalizing s with
  | nil => exact .refl s
  | cons a _ ih =>
    rw [List.foldlM_cons, List.foldlM_cons]
    refine Concur.bind (concur_self fun _ => trivial).with_eq ?_
    rintro u _ ⟨hu, -, rfl⟩
    have hamong := (combine_ends hs (hsets a (by simp))).of_eq_ok hu
    exact ih hamong fun b hb => hsets b (by simp [hb])
  | swap a b rest =>
    simp only [List.foldlM_cons]
    rw [← bind_assoc, ← bind_assoc]
    refine (combine_combine_concur hs (hsets b (by simp)) (hsets a (by simp))).bind fun u u' hu => ?_
    exact hu.foldlM rest
  | trans h _ ih ih' =>
    refine (ih hs hsets).trans (ih' hs fun a ha => hsets a (h.mem_iff.2 ha)) (fun _ _ => trivial) ?_
    exact fun _ _ _ => Alike.trans

end Attributes

/-! ### Stores -/

namespace AttributeStore

variable {N : String → Prop} {s t : AttributeStore} {a b : Attributes} {r : Ref}

/-- The stores have the same roots, and attributes that are alike on every node. -/
structure Alike (N : String → Prop) (s t : AttributeStore) : Prop where
  serial : s.serial = t.serial
  roots : s.roots = t.roots
  nodes : ∀ index, (s.atIndex index).Alike N (t.atIndex index)

theorem Alike.refl (s : AttributeStore) : s.Alike N s := ⟨rfl, rfl, fun _ => .refl _⟩

/-- A write fails exactly if types clash. -/
theorem add_ends_typesAgree (hr : r.serial = s.serial) :
    Ends (s.add r a) (fun _ => ¬(s.atIndex r.index).TypesAgree a) fun s' =>
      (s.atIndex r.index).TypesAgree a ∧ s.Writes r.index a s' := by
  refine (add_ends_of_combine hr (Attributes.combine_ends_joined.mono fun _ _ => trivial)).mono ?_
  exact fun s' hs' => ⟨(Attributes.combine_ends_joined.of_eq_ok hs'.here).1, hs'⟩

/-- **Writes of attributes that are alike concur**, and leave stores that are alike. -/
theorem Alike.add (h : s.Alike N t) (hab : a.Alike N b) :
    Concur (fun _ _ => True) (Alike N) (s.add r a) (t.add r b) := by
  by_cases hr : r.serial = s.serial
  · have hother := add_ends_typesAgree (a := b) (hr.trans h.serial)
    rw [← (h.nodes r.index).typesAgree_iff hab] at hother
    refine concur_of_ends (fun _ _ => trivial) (add_ends_typesAgree hr) hother ?_
    intro s' t' hs ht
    refine ⟨by rw [hs.serial, ht.serial, h.serial], by rw [hs.roots, ht.roots, h.roots], fun k => ?_⟩
    by_cases hk : k = r.index
    · subst hk
      have hconcur := (h.nodes r.index).combine hab
      rw [hs.here, ht.here] at hconcur
      exact hconcur
    · rw [hs.elsewhere k hk, ht.elsewhere k hk]
      exact h.nodes k
  · have hr' : ¬r.serial = t.serial := h.serial ▸ hr
    rw [AttributeStore.add, Ref.requireSerial, if_neg hr, AttributeStore.add, Ref.requireSerial,
      if_neg hr']
    trivial

theorem Alike.addRoot (h : s.Alike N t) {root : String} :
    Concur (fun _ _ => True) (Alike N) (s.addRoot root a) (t.addRoot root a) := by
  rw [addRoot_eq, addRoot_eq, ofRoot, ofRoot, h.roots]
  split
  · exact h
  · refine Concur.bind (concur_self fun _ => trivial) fun merged _ heq => ?_
    subst heq
    exact ⟨h.serial, rfl, h.nodes⟩

theorem find?_eq_bind {type : ValueType} {kind : AttributeKind type} :
    s.find? kind r = r.requireSerial s.serial >>= fun _ => (s.atIndex r.index).find? kind := by
  rw [find?_eq_ofNode, ofNode]
  cases r.requireSerial s.serial <;> rfl

/-- A kind can be read off both stores or off none, -/
theorem Alike.find? (h : s.Alike N t) {type : ValueType} {kind : AttributeKind type} :
    Concur (fun _ _ => True) (fun _ _ => True) (s.find? kind r) (t.find? kind r) := by
  rw [find?_eq_bind, find?_eq_bind, h.serial]
  exact (concur_self fun _ => trivial).bind fun _ _ _ => (h.nodes r.index).find?

/-- with the same value if its name is in `N`. -/
theorem Alike.find?_eq (h : s.Alike N t) {type : ValueType} {kind : AttributeKind type}
    (hkind : N kind.name) : s.find? kind r = t.find? kind r := by
  rw [find?_eq_bind, find?_eq_bind, h.serial, Attributes.find?_eq_under, Attributes.find?_eq_under,
    (h.nodes r.index).values _ hkind]

end AttributeStore

end SchemaGraph
