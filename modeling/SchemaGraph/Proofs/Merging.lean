import Mathlib.Data.List.Nodup
import Mathlib.Data.Set.Basic
import SchemaGraph.Proofs.Collections
import SchemaGraph.Proofs.Outcome

/-!
# Merging attributes

Attributes that are merged may clash: two values under one name can have different types. What
rules this out is that every name has one type (`SchemaGraph.OneType`), which is asked of the
**kinds** that occur and not of the values. Since a merge keeps the kind that was there first, a
property of all kinds of a store is kept by every write to it
(`SchemaGraph.AttributeStore.add_ends`), and with it the absence of clashes.

If a kind unites its values and is alone under its name (`SchemaGraph.Sole`), what is in its value
after a merge was in one of the two before (`SchemaGraph.Attributes.lists_combine`). The library's
own kinds are of this sort, and markers in particular are never lost in a merge.
-/

namespace SchemaGraph

/-! ### Kinds -/

/-- An attribute kind together with the type of its values. -/
abbrev AnyKind := (t : ValueType) × AttributeKind t

/-- The kind of an attribute. -/
def Attribute.anyKind (a : Attribute) : AnyKind := ⟨a.type, a.kind⟩

/-- The kinds of a set of attributes have the property. -/
def Attributes.Among (P : AnyKind → Prop) (s : Attributes) : Prop := ∀ a ∈ s.toList, P a.anyKind

/-- The kinds of all attributes of nodes have the property. -/
def AttributeStore.Among (P : AnyKind → Prop) (s : AttributeStore) : Prop :=
  ∀ index, (s.atIndex index).Among P

/-- **The kinds give every name one type**, and the names that the library reads itself have the
types it reads them with. -/
def OneType (P : AnyKind → Prop) : Prop :=
  ∃ type : String → ValueType,
    type AttributeKind.names.name = .candidates ∧ type AttributeKind.provenance.name = .markers ∧
      ∀ k, P k → k.1 = type k.2.name

theorem OneType.names {P : AnyKind → Prop} (h : OneType P) (k : AnyKind) (hk : P k)
    (hname : k.2.name = AttributeKind.names.name) : k.1 = .candidates := by
  obtain ⟨type, hnames, -, htype⟩ := h
  rw [htype k hk, hname, hnames]

theorem OneType.provenance {P : AnyKind → Prop} (h : OneType P) (k : AnyKind) (hk : P k)
    (hname : k.2.name = AttributeKind.provenance.name) : k.1 = .markers := by
  obtain ⟨type, -, hprovenance, htype⟩ := h
  rw [htype k hk, hname, hprovenance]

/-- Not every two kinds go together. Statements about every result, with or without faults, are
the case where nothing is asked of the kinds. -/
theorem not_oneType_true : ¬OneType fun _ => True := by
  rintro ⟨type, -, -, h⟩
  have htext := h ⟨.text, ⟨"", keepLater, fun _ => none, none⟩⟩ trivial
  have hnumber := h ⟨.number, ⟨"", keepLater, fun _ => none, none⟩⟩ trivial
  exact absurd (htext.trans hnumber.symm) (by decide)

/-- No kind but the library's own has the name of provenance. -/
def UnitesMarkers (P : AnyKind → Prop) : Prop :=
  ∀ k, P k → k.2.name = AttributeKind.provenance.name → k = ⟨.markers, .provenance⟩

/-- The kind is one of the library's own. -/
def OwnKind (k : AnyKind) : Prop :=
  k = ⟨.candidates, .names⟩ ∨ k = ⟨.labels, .description⟩ ∨ k = ⟨.markers, .provenance⟩

/-- The library's own kinds go together. -/
theorem oneType_ownKind : OneType OwnKind := by
  refine ⟨fun name => if name = AttributeKind.provenance.name then .markers else
    if name = AttributeKind.names.name then .candidates else .labels, by decide, by decide, ?_⟩
  rintro k (rfl | rfl | rfl) <;> decide

theorem unitesMarkers_ownKind : UnitesMarkers OwnKind := by
  rintro k (rfl | rfl | rfl) hname
  · exact absurd hname (by decide)
  · exact absurd hname (by decide)
  · rfl

/-- No other kind has the name of this one. Kinds are keyed by their names, which have to be
unique. -/
def Sole {t : ValueType} (kind : AttributeKind t) (k : AnyKind) : Prop :=
  k.2.name = kind.name → k = ⟨t, kind⟩

theorem unitesMarkers_sole : UnitesMarkers (Sole .provenance) := fun _ h => h

namespace AttributeKind

/-- Combining two values unites what is in them. -/
def Unites {t : ValueType} {E : Type} (kind : AttributeKind t) (elements : t.Carrier → Set E) :
    Prop :=
  ∀ a b, elements (kind.combine a b) = elements a ∪ elements b

/-- The library's own kinds unite sets. -/
theorem unites_own : (names.Unites fun s => {a | a ∈ s}) ∧
    (description.Unites fun s => {a | a ∈ s}) ∧ provenance.Unites fun s => {a | a ∈ s} :=
  ⟨fun _ _ => Set.ext fun _ => SortedSet.mem_union, fun _ _ => Set.ext fun _ => SortedSet.mem_union,
    fun _ _ => Set.ext fun _ => SortedSet.mem_union⟩

/-- Whatever a kind makes of two values, there is one. -/
theorem unites_univ {t : ValueType} {kind : AttributeKind t} :
    kind.Unites fun _ => (Set.univ : Set Unit) := fun _ _ => (Set.union_self _).symm

end AttributeKind

variable {P : AnyKind → Prop}

theorem AttributeStore.among_empty {serial : Nat} : (AttributeStore.empty serial).Among P :=
  fun _ _ h => by cases h

theorem AttributeStore.among_of_slots {s : AttributeStore}
    (h : ∀ attributes, some attributes ∈ s.slots.toList → Attributes.Among P attributes) :
    s.Among P := by
  intro index
  rw [atIndex]
  cases hslot : s.slot? index with
  | none => exact fun a ha => by cases ha
  | some attributes =>
    have hget : s.slots[index]? = some (some attributes) := Option.join_eq_some_iff.1 hslot
    exact h attributes (Array.mem_toList_iff.2 (Array.mem_of_getElem? hget))

/-! ### One attribute into a set -/

namespace Attribute

variable {a b c : Attribute}

theorem anyKind_combine (h : a.combine b = .ok c) : c.anyKind = a.anyKind := by
  rw [combine] at h
  obtain ⟨later, -, rfl⟩ := exists_of_map_eq_ok h
  rfl

/-- An attribute under the name of a kind that is alone under it is of that kind. -/
theorem eq_of_sole {t : ValueType} {kind : AttributeKind t} (ha : Sole kind a.anyKind)
    (hname : a.name = kind.name) : ∃ value, a = ⟨t, kind, value⟩ := by
  obtain ⟨type, kind', value⟩ := a
  obtain ⟨rfl, hkind⟩ := Sigma.mk.inj (ha hname)
  obtain rfl := eq_of_heq hkind
  exact ⟨value, rfl⟩

/-- The later attribute may be of another kind, as long as its value can be read. -/
theorem combine_eq_ok {t : ValueType} {kind kind' : AttributeKind t} {u v : t.Carrier} :
    combine ⟨t, kind, u⟩ ⟨t, kind', v⟩ = .ok ⟨t, kind, kind.combine u v⟩ := by
  simp [combine, read, Except.map]

theorem combine_ends (hab : a.type = b.type) :
    Ends (a.combine b) (fun _ => False) fun c => c.anyKind = a.anyKind := by
  cases h : a.combine b with
  | ok c => exact anyKind_combine h
  | error f => simp [combine, read, hab, Except.map] at h

theorem combine_ends_of_among (ha : P a.anyKind) (hb : P b.anyKind) (hab : b.name = a.name) :
    Ends (a.combine b) (fun _ => ¬OneType P) fun c => c.anyKind = a.anyKind := by
  by_cases htype : OneType P
  · obtain ⟨type, -, -, h⟩ := htype
    have hsame : a.type = b.type := by
      calc a.type = type a.name := h _ ha
        _ = type b.name := by rw [hab]
        _ = b.type := (h _ hb).symm
    exact (combine_ends hsame).mono_bad fun _ => False.elim
  · cases h : a.combine b with
    | ok c => exact anyKind_combine h
    | error f => exact htype

theorem mergeInto_ends {as : List Attribute} (ha : P a.anyKind) (has : ∀ b ∈ as, P b.anyKind) :
    Ends (mergeInto a as) (fun _ => ¬OneType P) fun bs => ∀ b ∈ bs, P b.anyKind := by
  induction as with
  | nil => simpa [mergeInto] using ha
  | cons b rest ih =>
    have hb : P b.anyKind := has b (by simp)
    have hrest : ∀ c ∈ rest, P c.anyKind := fun c hc => has c (by simp [hc])
    rw [mergeInto]
    split
    · rename_i hname
      have hcomb := combine_ends_of_among hb ha hname.symm
      cases hc : b.combine a with
      | error f =>
        rw [hc] at hcomb
        exact hcomb
      | ok c =>
        rw [hc] at hcomb
        have hc' : c.anyKind = b.anyKind := hcomb
        change ∀ d ∈ c :: rest, P d.anyKind
        simpa [hc', hb] using hrest
    · have hmerge := ih hrest
      cases hm : mergeInto a rest with
      | error f =>
        rw [hm] at hmerge
        exact hmerge
      | ok cs =>
        rw [hm] at hmerge
        change ∀ d ∈ b :: cs, P d.anyKind
        simpa [hb] using hmerge

/-- The attributes of a set after one more was merged into it: the new one alone, or in the place
of the one that had its name. -/
theorem mem_mergeInto {as bs : List Attribute} (hnd : (as.map name).Nodup)
    (h : mergeInto a as = .ok bs) :
    c ∈ bs ↔ (c ∈ as ∧ c.name ≠ a.name) ∨ (c = a ∧ a.name ∉ as.map name) ∨
      ∃ b ∈ as, b.name = a.name ∧ b.combine a = .ok c := by
  induction as generalizing bs with
  | nil =>
    simp only [mergeInto, Except.ok.injEq] at h
    simp [← h]
  | cons b rest ih =>
    obtain ⟨hb, hrest⟩ := List.nodup_cons.1 hnd
    simp only [mergeInto] at h
    split at h
    · rename_i hname
      obtain ⟨d, hc, rfl⟩ := exists_of_map_eq_ok h
      -- names are distinct, so no attribute further on has this one
      have hne : ∀ e ∈ rest, e.name ≠ a.name := fun e he heq =>
        hb (List.mem_map.2 ⟨e, he, heq.trans hname.symm⟩)
      grind
    · rename_i hname
      obtain ⟨cs, hm, rfl⟩ := exists_of_map_eq_ok h
      have := ih hrest hm
      grind

/-- The attribute that another one was combined into is in the new list. -/
theorem exists_combine_of_mergeInto (hnd : (as.map name).Nodup) (h : mergeInto a as = .ok bs)
    (hb : b ∈ as) (hname : b.name = a.name) : ∃ c ∈ bs, b.combine a = .ok c := by
  have hmem : a.name ∈ as.map name := List.mem_map.2 ⟨b, hb, hname⟩
  have hnames := names_mergeInto h
  rw [if_pos hmem] at hnames
  obtain ⟨c, hc, hcname⟩ := List.mem_map.1 (hnames ▸ hmem)
  rcases (mem_mergeInto hnd h).1 hc with ⟨-, hne⟩ | ⟨-, hnot⟩ | ⟨b', hb', hname', hcombine⟩
  · exact absurd hcname hne
  · exact absurd hmem hnot
  · obtain rfl := List.inj_on_of_nodup_map hnd hb hb' (hname.trans hname'.symm)
    exact ⟨c, hc, hcombine⟩

end Attribute

/-! ### One set into another -/

namespace Attributes

variable {s t u : Attributes} {a : Attribute}

theorem eq_empty_of_isEmpty (h : s.isEmpty = true) : s = ∅ := by
  obtain ⟨list, hnd⟩ := s
  obtain rfl : list = [] := List.isEmpty_iff.1 h
  rfl

theorem merge_toList (h : s.merge a = .ok t) : a.mergeInto s.toList = .ok t.toList := by
  rw [merge] at h
  split at h
  · simp at h
  · rename_i list hl
    simp only [Except.ok.injEq] at h
    subst h
    exact hl

theorem merge_ends (hs : s.Among P) (ha : P a.anyKind) :
    Ends (s.merge a) (fun _ => ¬OneType P) fun t => t.Among P := by
  have hends := Attribute.mergeInto_ends ha hs
  rw [merge]
  split
  · rename_i f hf
    rw [hf] at hends
    exact hends
  · rename_i list hl
    rw [hl] at hends
    exact hends

@[simp]
theorem combine_empty_left : combine ∅ t = .ok t := rfl

@[simp]
theorem combine_empty_right : s.combine ∅ = .ok s := by
  rw [combine]
  split
  · rename_i h
    rw [eq_empty_of_isEmpty h]
  · rfl

theorem combineAll_concat {sets : List Attributes} :
    combineAll (sets ++ [t]) = combineAll sets >>= (·.combine t) := by
  rw [combineAll, combineAll, List.foldlM_append]
  refine congrArg _ (funext fun s => ?_)
  rw [List.foldlM_cons]
  exact bind_pure _

theorem combine_ends (hs : s.Among P) (ht : t.Among P) :
    Ends (s.combine t) (fun _ => ¬OneType P) fun u => u.Among P := by
  rw [combine]
  split
  · exact ht
  · exact Ends.foldlM (fun s hs a ha => merge_ends hs (ht a ha)) hs

/-- What is said by some attribute after a merge was said by some attribute of the two sides, if this
is so for each attribute that is merged into a set. -/
theorem exists_mem_foldlM_merge {p : Attributes → Prop} {q : Attribute → Prop} {as : List Attribute}
    (hs : p s) (hmerge : ∀ {s v a}, p s → a ∈ as → s.merge a = .ok v →
      p v ∧ ((∃ b ∈ v.toList, q b) ↔ (∃ b ∈ s.toList, q b) ∨ q a))
    (hu : as.foldlM merge s = .ok u) :
    (∃ b ∈ u.toList, q b) ↔ (∃ b ∈ s.toList, q b) ∨ ∃ a ∈ as, q a := by
  induction as generalizing s with
  | nil =>
    obtain rfl := Except.ok.inj hu
    simp
  | cons a rest ih =>
    rw [List.foldlM_cons] at hu
    obtain ⟨next, hm, hu⟩ := exists_of_bind_eq_ok hu
    obtain ⟨hnext, hiff⟩ := hmerge hs (by simp) hm
    rw [ih hnext (fun hs hb => hmerge hs (by simp [hb])) hu, hiff, or_assoc]
    simp only [List.mem_cons, or_and_right, exists_or, exists_eq_left]

theorem exists_mem_combine {p : Attributes → Prop} {q : Attribute → Prop} (hs : p s)
    (hmerge : ∀ {s v a}, p s → a ∈ t.toList → s.merge a = .ok v →
      p v ∧ ((∃ b ∈ v.toList, q b) ↔ (∃ b ∈ s.toList, q b) ∨ q a))
    (hu : s.combine t = .ok u) :
    (∃ b ∈ u.toList, q b) ↔ (∃ b ∈ s.toList, q b) ∨ ∃ b ∈ t.toList, q b := by
  rw [combine] at hu
  split at hu
  · rename_i hempty
    obtain rfl := Except.ok.inj hu
    obtain rfl := eq_empty_of_isEmpty hempty
    simp [EmptyCollection.emptyCollection, empty]
  · exact exists_mem_foldlM_merge hs hmerge hu

/-! ### What is in the values of one kind -/

section Lists

variable {s' : Attributes} {type : ValueType} {E : Type} {kind : AttributeKind type}
  {elements : type.Carrier → Set E} {x : E}

/-- The set has an attribute of the kind with `x` in its value. -/
def Lists (s : Attributes) (kind : AttributeKind type) (elements : type.Carrier → Set E) (x : E) :
    Prop :=
  ∃ v, ⟨type, kind, v⟩ ∈ s.toList ∧ x ∈ elements v

theorem lists_merge (hunites : kind.Unites elements) (hs : s.Among (Sole kind))
    (ha : Sole kind a.anyKind) (hm : s.merge a = .ok u) :
    u.Lists kind elements x ↔
      s.Lists kind elements x ∨ ∃ v, a = ⟨type, kind, v⟩ ∧ x ∈ elements v := by
  have hiff := fun c => Attribute.mem_mergeInto (c := c) s.nodup (merge_toList hm)
  by_cases hname : a.name = kind.name
  · obtain ⟨value, rfl⟩ := Attribute.eq_of_sole ha hname
    -- the value under this name in the set, if there is one, takes in the new one
    have hcombined : ∀ {v}, ⟨type, kind, v⟩ ∈ s.toList →
        ⟨type, kind, kind.combine v value⟩ ∈ u.toList := fun hv =>
      (hiff _).2 (.inr (.inr ⟨_, hv, rfl, Attribute.combine_eq_ok⟩))
    constructor
    · rintro ⟨v, hv, hx⟩
      rcases (hiff _).1 hv with ⟨-, hne⟩ | ⟨heq, -⟩ | ⟨b, hb, hbname, hcombine⟩
      · exact absurd rfl hne
      · exact .inr ⟨v, heq.symm, hx⟩
      · obtain ⟨w, rfl⟩ := Attribute.eq_of_sole (hs b hb) hbname
        rw [Attribute.combine_eq_ok] at hcombine
        obtain rfl := eq_of_heq (Attribute.mk.inj (Except.ok.inj hcombine)).2.2
        rw [hunites] at hx
        exact hx.imp (fun hx => ⟨w, hb, hx⟩) fun hx => ⟨value, rfl, hx⟩
    · rintro (⟨v, hv, hx⟩ | ⟨v, heq, hx⟩)
      · exact ⟨_, hcombined hv, hunites v value ▸ .inl hx⟩
      · obtain rfl := eq_of_heq (Attribute.mk.inj heq).2.2
        by_cases hmem : kind.name ∈ s.toList.map Attribute.name
        · obtain ⟨b, hb, hbname⟩ := List.mem_map.1 hmem
          obtain ⟨w, rfl⟩ := Attribute.eq_of_sole (hs b hb) hbname
          exact ⟨_, hcombined hb, hunites w value ▸ .inr hx⟩
        · exact ⟨value, (hiff _).2 (.inr (.inl ⟨rfl, hmem⟩)), hx⟩
  · -- an attribute of another name makes no difference
    constructor
    · rintro ⟨v, hv, hx⟩
      rcases (hiff _).1 hv with ⟨hv, -⟩ | ⟨rfl, -⟩ | ⟨b, hb, hbname, hcombine⟩
      · exact .inl ⟨v, hv, hx⟩
      · exact absurd rfl hname
      · exact absurd (hbname.symm.trans (Attribute.name_combine hcombine).symm) hname
    · rintro (⟨v, hv, hx⟩ | ⟨v, rfl, -⟩)
      · exact ⟨v, (hiff _).2 (.inl ⟨hv, Ne.symm hname⟩), hx⟩
      · exact absurd rfl hname

/-- **A merge lists what both sides list.** -/
theorem lists_combine (hunites : kind.Unites elements) (hs : s.Among (Sole kind))
    (hs' : s'.Among (Sole kind)) (hu : s.combine s' = .ok u) :
    u.Lists kind elements x ↔ s.Lists kind elements x ∨ s'.Lists kind elements x := by
  have hiff : ∀ s : Attributes, s.Lists kind elements x ↔
      ∃ b ∈ s.toList, ∃ v, b = ⟨type, kind, v⟩ ∧ x ∈ elements v := fun s =>
    ⟨fun ⟨v, hv, hx⟩ => ⟨_, hv, v, rfl, hx⟩, fun ⟨_, hv, v, heq, hx⟩ => ⟨v, heq ▸ hv, hx⟩⟩
  rw [hiff, hiff, hiff]
  refine exists_mem_combine (p := Among (Sole kind)) hs (fun {s v a} hs ha hm => ?_) hu
  rw [← hiff, ← hiff]
  exact ⟨(merge_ends hs (hs' a ha)).of_eq_ok hm, lists_merge hunites hs (hs' a ha) hm⟩

/-- A fold of merges lists what any of the sets lists. -/
theorem lists_foldlM_combine (hunites : kind.Unites elements) {sets : List Attributes}
    (hs : s.Among (Sole kind)) (hsets : ∀ a ∈ sets, Attributes.Among (Sole kind) a)
    (hu : sets.foldlM combine s = .ok u) :
    u.Among (Sole kind) ∧ (u.Lists kind elements x ↔
      s.Lists kind elements x ∨ ∃ a ∈ sets, a.Lists kind elements x) := by
  induction sets generalizing s with
  | nil =>
    obtain rfl := Except.ok.inj hu
    simpa using hs
  | cons a rest ih =>
    have ha : a.Among (Sole kind) := hsets a (by simp)
    rw [List.foldlM_cons] at hu
    obtain ⟨next, hm, hu⟩ := exists_of_bind_eq_ok hu
    obtain ⟨hamong, hiff⟩ := ih ((combine_ends hs ha).of_eq_ok hm)
      (fun b hb => hsets b (by simp [hb])) hu
    refine ⟨hamong, ?_⟩
    rw [hiff, lists_combine hunites hs ha hm, or_assoc]
    simp

/-- What is read off a set in which the kind is alone under its name. -/
theorem find?_of_sole (hs : s.Among (Sole kind)) :
    ∃ found, s.find? kind = .ok found ∧ ∀ v, found = some v ↔ ⟨type, kind, v⟩ ∈ s.toList := by
  rw [find?]
  cases hfind : s.toList.find? (·.name = kind.name) with
  | none =>
    refine ⟨none, rfl, fun v => iff_of_false nofun fun hv => ?_⟩
    simpa [Attribute.name] using List.find?_eq_none.1 hfind _ hv
  | some a =>
    have ha : a ∈ s.toList := List.mem_of_find?_eq_some hfind
    have hname : a.name = kind.name := by simpa using List.find?_some hfind
    obtain ⟨value, rfl⟩ := Attribute.eq_of_sole (hs a ha) hname
    refine ⟨some value, by simp [Attribute.read, Except.map], fun v => ⟨?_, fun hv => ?_⟩⟩
    · rintro ⟨⟩
      exact ha
    · have heq := List.inj_on_of_nodup_map s.nodup hv ha rfl
      rw [eq_of_heq (Attribute.mk.inj heq).2.2]

end Lists

/-! ### Markers -/

/-- The set has the marker among its provenance. -/
def Carries (s : Attributes) (marker : Nat) : Prop :=
  ∃ found : SortedSet Nat, ⟨.markers, .provenance, found⟩ ∈ s.toList ∧ marker ∈ found

/-- Reading a kind meets no fault but a clash of types, if its name has the type of its values. -/
theorem find?_ends {type : ValueType} {kind : AttributeKind type} (hs : s.Among P)
    (htype : OneType P → ∀ k, P k → k.2.name = kind.name → k.1 = type) :
    Ends (s.find? kind) (fun _ => ¬OneType P) fun _ => True := by
  rw [find?]
  split
  · trivial
  · rename_i a hsome
    have ha : a ∈ s.toList := List.mem_of_find?_eq_some hsome
    have hname : a.name = kind.name := by simpa using List.find?_some hsome
    by_cases hread : a.type = type
    · obtain ⟨type', kind', value⟩ := a
      obtain rfl : type' = type := hread
      rw [Attribute.read, dif_pos rfl]
      trivial
    · rw [Attribute.read, dif_neg hread]
      exact fun hP => hread (htype hP _ (hs a ha) hname)

end Attributes

/-! ### Stores -/

namespace AttributeStore

variable {s s' : AttributeStore} {r : Ref} {attributes : Attributes}

theorem ofNode_eq_ok (hr : r.serial = s.serial) : s.ofNode r = .ok (s.atIndex r.index) := by
  rw [ofNode, Ref.requireSerial_eq_ok hr]
  rfl

theorem find?_eq_atIndex {t : ValueType} {kind : AttributeKind t} (hr : r.serial = s.serial) :
    s.find? kind r = (s.atIndex r.index).find? kind := by
  rw [find?_eq_ofNode, ofNode_eq_ok hr]
  rfl

section Sole

variable {t : ValueType} {E : Type} {kind : AttributeKind t} {elements : t.Carrier → Set E} {x : E}

/-- A kind that is alone under its name can be read off every node. -/
theorem exists_find?_eq_ok (hs : s.Among (Sole kind)) (hr : r.serial = s.serial) :
    ∃ found, s.find? kind r = .ok found := by
  obtain ⟨found, hfound, -⟩ := Attributes.find?_of_sole (hs r.index)
  exact ⟨found, (find?_eq_atIndex hr).trans hfound⟩

/-- What the attributes of a node list is in the value that is read off it. -/
theorem lists_iff_find? (hs : s.Among (Sole kind)) (hr : r.serial = s.serial) :
    (s.atIndex r.index).Lists kind elements x ↔
      ∃ v, s.find? kind r = .ok (some v) ∧ x ∈ elements v := by
  obtain ⟨found, hfound, hmem⟩ := Attributes.find?_of_sole (hs r.index)
  have hread : s.find? kind r = .ok found := (find?_eq_atIndex hr).trans hfound
  simp only [Attributes.Lists, ← hmem, hread, Except.ok.injEq]

end Sole

theorem serial_eq_of_add (h : s.add r attributes = .ok s') : r.serial = s.serial := by
  unfold add Ref.requireSerial at h
  split at h
  · assumption
  · simp [bind, Except.bind] at h

/-- What a write to a node does: it merges the attributes into those of that node, and touches
nothing else. -/
structure Writes (s : AttributeStore) (index : Nat) (attributes : Attributes)
    (s' : AttributeStore) : Prop where
  serial : s'.serial = s.serial
  roots : s'.roots = s.roots
  here : (s.atIndex index).combine attributes = .ok (s'.atIndex index)
  elsewhere : ∀ k ≠ index, s'.atIndex k = s.atIndex k

theorem add_eq (hr : r.serial = s.serial) : s.add r attributes =
    if attributes.isEmpty then .ok s else
      (s.atIndex r.index).combine attributes >>= fun merged => .ok (s.put r.index merged) := by
  rw [add, Ref.requireSerial_eq_ok hr, Attributes.mergeFound_eq]
  rfl

theorem writes_of_add (h : s.add r attributes = .ok s') : s.Writes r.index attributes s' := by
  rw [add_eq (serial_eq_of_add h)] at h
  split at h
  · rename_i hempty
    obtain rfl := Except.ok.inj h
    obtain rfl := Attributes.eq_empty_of_isEmpty hempty
    exact ⟨rfl, rfl, Attributes.combine_empty_right, fun _ _ => rfl⟩
  · obtain ⟨merged, hc, h⟩ := exists_of_bind_eq_ok h
    obtain rfl := Except.ok.inj h
    refine ⟨rfl, rfl, ?_, fun k hk => ?_⟩
    · rw [hc, atIndex_put, if_pos rfl]
    · rw [atIndex_put, if_neg hk.symm]

theorem Writes.among {index : Nat} (h : s.Writes index attributes s') (hs : s.Among P)
    (ha : attributes.Among P) : s'.Among P := by
  intro k
  by_cases hk : k = index
  · subst hk
    exact (Attributes.combine_ends (hs k) ha).of_eq_ok h.here
  · rw [h.elsewhere k hk]
    exact hs k

/-- A write to a root touches nothing but roots. -/
theorem exists_roots_of_addRoot {root : String} (h : s.addRoot root attributes = .ok s') :
    ∃ roots, s' = { s with roots } := by
  rw [addRoot_eq] at h
  split at h
  · exact ⟨s.roots, (Except.ok.inj h).symm⟩
  · obtain ⟨merged, -, h⟩ := exists_of_bind_eq_ok h
    exact ⟨_, (Except.ok.inj h).symm⟩

/-- A write to a node of the generation meets no fault but one of the merge. -/
theorem add_ends_of_combine {bad : Fault → Prop} (hr : r.serial = s.serial)
    (h : Ends ((s.atIndex r.index).combine attributes) bad fun _ => True) :
    Ends (s.add r attributes) bad fun s' => s.Writes r.index attributes s' := by
  have hends : Ends (s.add r attributes) bad fun _ => True := by
    rw [add_eq hr]
    split
    · trivial
    · exact h.bind fun _ _ => trivial
  exact hends.with_eq.mono fun _ h => writes_of_add h.1

/-- A write to a node of the generation meets no fault but a clash of types. -/
theorem add_ends (hr : r.serial = s.serial) (hs : s.Among P) (ha : attributes.Among P) :
    Ends (s.add r attributes) (fun _ => ¬OneType P) fun s' => s.Writes r.index attributes s' :=
  add_ends_of_combine hr ((Attributes.combine_ends (hs r.index) ha).mono fun _ _ => trivial)

end AttributeStore

end SchemaGraph
