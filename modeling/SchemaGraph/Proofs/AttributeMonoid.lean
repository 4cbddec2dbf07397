import SchemaGraph.Proofs.IdentityTexts
import SchemaGraph.Proofs.MergeOrder
import SchemaGraph.Proofs.StoreWrites

/-!
# Sets of attributes under merging

Sets of attributes form a monoid under merging, with the set without attributes as its unit
(`SchemaGraph.Attributes.combine_monoid_laws`). Two things have to come together in the associative
law. One is what is under each name, which is joined name by name
(`SchemaGraph.Attributes.combine_ends_joined`), so that the law of the kinds carries over. The other is
the order of the names, the new ones of the later operand after those of the earlier one
(`SchemaGraph.Attributes.names_combine`). A set is determined by both
(`SchemaGraph.Attributes.ext_under`).

Kinds are keyed by their names, which have to be unique, and this is needed: a merge goes by the rule of
the kind that was there first, so which of two rules under one name is used would depend on the grouping
(`SchemaGraph.Attributes.not_assoc_of_two_rules`).
-/

namespace SchemaGraph

/-- **Kinds that may be merged in any grouping**: a name stands for one type of values and one rule, and
every rule is associative. -/
structure Lawful (P : AnyKind → Prop) : Prop where
  type_eq : ∀ {k k' : AnyKind}, P k → P k' → k.2.name = k'.2.name → k.1 = k'.1
  rule_eq : ∀ {t : ValueType} {kind kind' : AttributeKind t}, P ⟨t, kind⟩ → P ⟨t, kind'⟩ →
    kind.name = kind'.name → kind.combine = kind'.combine
  assoc : ∀ {t : ValueType} {kind : AttributeKind t}, P ⟨t, kind⟩ → ∀ a b c,
    kind.combine (kind.combine a b) c = kind.combine a (kind.combine b c)

variable {P : AnyKind → Prop}

/-! ### Under one name -/

namespace Attribute

/-- What is there has the name, and is of the kinds considered. -/
def Fits (P : AnyKind → Prop) (name : String) (found : Option Attribute) : Prop :=
  ∀ a, found = some a → P a.anyKind ∧ a.name = name

/-- **Joining is associative** under each name. -/
theorem join_assoc (hP : Lawful P) {name : String} {x y z : Option Attribute} (hx : Fits P name x)
    (hy : Fits P name y) (hz : Fits P name z) :
    (join x y >>= fun xy => join xy z) = (join y z >>= fun yz => join x yz) := by
  have hpure : ∀ found : Except Fault (Option Attribute), (found >>= fun z => .ok z) = found :=
    fun found => by cases found <;> rfl
  rcases x with _ | ⟨t, κ, u⟩
  · simp only [join_none_left, ok_bind, hpure]
  rcases y with _ | ⟨t', κ', v⟩
  · rw [join_none_right, join_none_left, ok_bind, ok_bind]
  rcases z with _ | ⟨t'', κ'', w⟩
  · simp only [join_none_right, ok_bind, hpure]
  obtain ⟨hκ, hname⟩ := hx _ rfl
  obtain ⟨hκ', hname'⟩ := hy _ rfl
  obtain ⟨hκ'', hname''⟩ := hz _ rfl
  obtain rfl : t' = t := hP.type_eq hκ' hκ (hname'.trans hname.symm)
  obtain rfl : t'' = t' := hP.type_eq hκ'' hκ (hname''.trans hname.symm)
  have hrule : κ'.combine = κ.combine := hP.rule_eq hκ' hκ (hname'.trans hname.symm)
  rw [join_mk_mk, join_mk_mk, ok_bind, ok_bind, join_mk_mk, join_mk_mk, hrule, hP.assoc hκ]

end Attribute

namespace Attributes

variable {s t u : Attributes} {name : String}

/-! ### Names and what is under them -/

theorem toList_eq_filterMap : s.toList = s.names.filterMap s.under := by
  have hunder : ∀ a ∈ s.toList, s.under a.name = some a := fun a ha => under_eq_some_iff.2 ⟨ha, rfl⟩
  rw [names, List.filterMap_map]
  exact ((List.filterMap_congr hunder).trans List.filterMap_some).symm

/-- **A set is determined by its names, in order, and by what is under each.** -/
theorem ext_under (hnames : s.names = t.names) (hunder : ∀ name, s.under name = t.under name) :
    s = t := by
  have hlist : s.toList = t.toList := by
    rw [toList_eq_filterMap, toList_eq_filterMap, hnames, funext hunder]
  obtain ⟨list, hnodup⟩ := s
  obtain rfl : list = t.toList := hlist
  rfl

/-- The names of the list come in turn, those that are not there yet at the end. -/
theorem names_foldlM_merge {as : List Attribute} (has : (as.map Attribute.name).Nodup)
    (h : as.foldlM merge s = .ok u) :
    u.names = s.names ++ (as.map Attribute.name).filter (· ∉ s.names) := by
  induction as generalizing s with
  | nil =>
    obtain rfl := Except.ok.inj h
    exact (List.append_nil _).symm
  | cons a rest ih =>
    obtain ⟨hnot, hrest⟩ := List.nodup_cons.1 has
    rw [List.foldlM_cons] at h
    obtain ⟨v, hv, h⟩ := exists_of_bind_eq_ok h
    have hnames := names_merge hv
    rw [ih hrest h, List.map_cons]
    by_cases ha : a.name ∈ s.names
    · rw [if_pos ha] at hnames
      rw [hnames, List.filter_cons_of_neg (by simpa using ha)]
    · rw [if_neg ha] at hnames
      -- the other names of the list are not the one that was added
      have hfilter : (rest.map Attribute.name).filter (· ∉ v.names) =
          (rest.map Attribute.name).filter (· ∉ s.names) := by
        refine List.filter_congr fun name hname => ?_
        have hne : name ≠ a.name := fun heq => hnot (heq ▸ hname)
        simp [hnames, hne]
      rw [hfilter, hnames, List.filter_cons_of_pos (by simpa using ha), List.append_assoc]
      rfl

/-- **The names of the left side come first**, and then those of the right side that are new. -/
theorem names_combine (h : s.combine t = .ok u) :
    u.names = s.names ++ t.names.filter (· ∉ s.names) := by
  rw [combine] at h
  split at h
  · next hempty =>
    obtain rfl := Except.ok.inj h
    rw [eq_empty_of_isEmpty hempty]
    simp [names, EmptyCollection.emptyCollection, empty]
  · exact names_foldlM_merge t.nodup h

theorem fits_under (hs : s.Among P) (name : String) : Attribute.Fits P name (s.under name) := by
  intro a ha
  obtain ⟨hmem, hname⟩ := under_eq_some_iff.1 ha
  exact ⟨hs a hmem, hname⟩

/-! ### The laws -/

section Laws

variable (hP : Lawful P) (hs : s.Among P) (ht : t.Among P)

include hP hs ht

/-- **There is always a merge.** -/
theorem exists_combine : ∃ v, s.combine t = .ok v ∧ v.Among P := by
  have hagree : s.TypesAgree t := by
    intro name τ τ' hτ hτ'
    obtain ⟨a, ha, rfl⟩ := Option.map_eq_some_iff.1 hτ
    obtain ⟨b, hb, rfl⟩ := Option.map_eq_some_iff.1 hτ'
    obtain ⟨hκ, hname⟩ := fits_under hs name a ha
    obtain ⟨hκ', hname'⟩ := fits_under ht name b hb
    exact hP.type_eq hκ' hκ (hname'.trans hname.symm)
  obtain ⟨v, hv, -⟩ := combine_ends_joined.exists_ok fun _ hnot => hnot hagree
  exact ⟨v, hv, (combine_ends hs ht).of_eq_ok hv⟩

/-- **Merging is associative.** -/
theorem combine_assoc (hu : u.Among P) :
    (s.combine t >>= fun st => st.combine u) = (t.combine u >>= fun tu => s.combine tu) := by
  obtain ⟨st, hst, hst'⟩ := exists_combine hP hs ht
  obtain ⟨tu, htu, htu'⟩ := exists_combine hP ht hu
  obtain ⟨left, hleft, -⟩ := exists_combine hP hst' hu
  obtain ⟨right, hright, -⟩ := exists_combine hP hs htu'
  have hjoined : ∀ {a b c : Attributes}, a.combine b = .ok c → ∀ name,
      Attribute.join (a.under name) (b.under name) = .ok (c.under name) := fun h =>
    (combine_ends_joined.of_eq_ok h).2
  have heq : left = right := by
    refine ext_under ?_ fun name => ?_
    · rw [names_combine hleft, names_combine hst, names_combine hright, names_combine htu,
        List.filter_append, List.filter_filter, List.append_assoc]
      refine congrArg (fun rest => s.names ++ (t.names.filter (· ∉ s.names) ++ rest))
        (List.filter_congr fun name _ => ?_)
      simp only [List.mem_append, List.mem_filter, decide_eq_true_eq]
      by_cases hname : name ∈ s.names <;> simp [hname]
    · have hassoc := Attribute.join_assoc hP (fits_under hs name) (fits_under ht name)
        (fits_under hu name)
      rw [hjoined hst, hjoined htu] at hassoc
      change Attribute.join (st.under name) (u.under name) =
        Attribute.join (s.under name) (tu.under name) at hassoc
      rw [hjoined hleft, hjoined hright] at hassoc
      exact Except.ok.inj hassoc
  rw [hst, htu]
  exact hleft.trans (heq ▸ hright.symm)

omit ht in
/-- A kind of the same rule is under the name, if any, and its value can be read. -/
theorem exists_find? {τ : ValueType} {κ : AttributeKind τ} (hκ : P ⟨τ, κ⟩) :
    ∃ (κ' : AttributeKind τ) (x : Option τ.Carrier), κ'.combine = κ.combine ∧
      s.under κ.name = x.map (Attribute.mk τ κ') ∧ s.find? κ = .ok x := by
  rw [find?_eq_under]
  cases hunder : s.under κ.name with
  | none => exact ⟨κ, none, rfl, rfl, rfl⟩
  | some a =>
    obtain ⟨τ', κ', v⟩ := a
    obtain ⟨hκ', hname⟩ := fits_under hs _ _ hunder
    obtain rfl : τ' = τ := hP.type_eq hκ' hκ hname
    exact ⟨κ', some v, hP.rule_eq hκ' hκ hname, rfl, by simp [Attribute.read, Except.map]⟩

/-- **What is read of a kind after a merge** is combined of both values, the earlier one first, or is
the one that is there. -/
theorem find?_combine {τ : ValueType} {κ : AttributeKind τ} (hκ : P ⟨τ, κ⟩)
    (hu : s.combine t = .ok u) :
    ∃ x y, s.find? κ = .ok x ∧ t.find? κ = .ok y ∧ u.find? κ = .ok (x.merge κ.combine y) := by
  obtain ⟨κ₁, x, hrule, hx, hfind⟩ := exists_find? hP hs hκ
  obtain ⟨κ₂, y, -, hy, hfind'⟩ := exists_find? hP ht hκ
  refine ⟨x, y, hfind, hfind', ?_⟩
  have hjoined := (combine_ends_joined.of_eq_ok hu).2 κ.name
  have hread : ∀ (κ' : AttributeKind τ) (v : τ.Carrier),
      (Attribute.read ⟨τ, κ', v⟩ κ).map some = .ok (some v) := fun κ' v => by
    simp [Attribute.read, Except.map]
  rw [hx, hy] at hjoined
  rw [find?_eq_under]
  cases x with
  | none =>
    rw [Option.map_none, Attribute.join_none_left] at hjoined
    rw [← Except.ok.inj hjoined]
    cases y with
    | none => rfl
    | some v => exact hread κ₂ v
  | some v =>
    cases y with
    | none =>
      rw [Option.map_none, Attribute.join_none_right] at hjoined
      rw [← Except.ok.inj hjoined]
      exact hread κ₁ v
    | some w =>
      rw [Option.map_some, Option.map_some, Attribute.join_mk_mk] at hjoined
      rw [← Except.ok.inj hjoined, ← hrule]
      exact hread κ₁ _

end Laws

/-- Adding one value is merging the set that has it alone. -/
theorem add_eq_combine {τ : ValueType} {κ : AttributeKind τ} {v : τ.Carrier} :
    s.add κ v = s.combine (.singleton κ v) := by
  rw [combine]
  split
  · next hempty =>
    rw [eq_empty_of_isEmpty hempty]
    rfl
  · exact (bind_pure _).symm

/-- Any number of sets can be merged. -/
theorem exists_combineAll (hP : Lawful P) {sets : List Attributes} (hsets : ∀ s ∈ sets, Among P s) :
    ∃ u, combineAll sets = .ok u ∧ u.Among P := by
  have hends : Ends (combineAll sets) (fun _ => False) fun u => u.Among P := by
    refine Ends.foldlM (fun s hs t ht => ?_) fun _ h => by cases h
    obtain ⟨v, hv, hamong⟩ := exists_combine hP hs (hsets t ht)
    rw [hv]
    exact hamong
  exact hends.exists_ok fun _ => id

/-- **Lists of sets may be merged one by one.** The induction is on the second list, from its end. -/
theorem combineAll_append (hP : Lawful P) {xs ys : List Attributes}
    (hxs : ∀ s ∈ xs, Among P s) (hys : ∀ s ∈ ys, Among P s) : combineAll (xs ++ ys) =
      (combineAll xs >>= fun a => combineAll ys >>= fun b => a.combine b) := by
  obtain ⟨a, ha, hamong⟩ := exists_combineAll hP hxs
  rw [ha, ok_bind]
  induction ys using List.reverseRecOn with
  | nil => exact (congrArg combineAll (List.append_nil xs)).trans (ha.trans combine_empty_right.symm)
  | append_singleton ys t ih =>
    obtain ⟨hys, ht⟩ := List.forall_mem_append.1 hys
    obtain ⟨b, hb, hamong'⟩ := exists_combineAll hP hys
    have ih := ih hys
    rw [hb, ok_bind] at ih
    rw [← List.append_assoc, combineAll_concat, combineAll_concat, ih, hb, ok_bind]
    exact combine_assoc hP hamong hamong' (ht t (List.mem_singleton_self t))

/-- **Sets of attributes are a monoid under merging**, order and values together, if each name stands
for one type and one associative rule. The empty set is its unit, and there is always a merge: it has
the names of the left side first and then the new ones of the right side, and the value of each kind is
combined of both, or the one that is there. So lists of sets may be merged one by one, and adding a
value is merging the set that has it alone. What a set adds to an identity depends only on which texts
its attributes add. -/
theorem combine_monoid_laws (hP : Lawful P) :
    (∀ s : Attributes, combine ∅ s = .ok s ∧ s.combine ∅ = .ok s) ∧
    (∀ s t u : Attributes, s.Among P → t.Among P → u.Among P →
      ∃ v, (s.combine t >>= fun st => st.combine u) = .ok v ∧
        (t.combine u >>= fun tu => s.combine tu) = .ok v) ∧
    (∀ s t : Attributes, s.Among P → t.Among P → ∃ u, s.combine t = .ok u ∧ u.Among P ∧
      u.names = s.names ++ t.names.filter (· ∉ s.names) ∧
      ∀ (τ : ValueType) (κ : AttributeKind τ), P ⟨τ, κ⟩ → ∃ x y, s.find? κ = .ok x ∧
        t.find? κ = .ok y ∧ u.find? κ = .ok (x.merge κ.combine y)) ∧
    (∀ xs ys : List Attributes, (∀ s ∈ xs, Among P s) → (∀ s ∈ ys, Among P s) →
      ∃ a b u, combineAll xs = .ok a ∧ combineAll ys = .ok b ∧ a.combine b = .ok u ∧
        combineAll (xs ++ ys) = .ok u) ∧
    (∀ (s : Attributes) (τ : ValueType) (κ : AttributeKind τ) (v : τ.Carrier),
      s.add κ v = s.combine (.singleton κ v)) ∧
    ∀ s t : Attributes, (s.identityTexts = t.identityTexts ↔ ∀ e, s.Adds e ↔ t.Adds e) ∧
      (s.toList.Perm t.toList → s.identityTexts = t.identityTexts) := by
  refine ⟨fun s => ⟨combine_empty_left, combine_empty_right⟩, fun s t u hs ht hu => ?_,
    fun s t hs ht => ?_, fun xs ys hxs hys => ?_, fun _ _ _ _ => add_eq_combine,
    fun _ _ => ⟨identityTexts_eq_iff, identityTexts_eq_of_perm⟩⟩
  · obtain ⟨tu, htu, htu'⟩ := exists_combine hP ht hu
    obtain ⟨v, hv, -⟩ := exists_combine hP hs htu'
    have hright : (t.combine u >>= fun tu => s.combine tu) = .ok v := by
      rw [htu]
      exact hv
    exact ⟨v, (combine_assoc hP hs ht hu).trans hright, hright⟩
  · obtain ⟨u, hu, hamong⟩ := exists_combine hP hs ht
    exact ⟨u, hu, hamong, names_combine hu, fun τ κ hκ => find?_combine hP hs ht hκ hu⟩
  · obtain ⟨a, ha, hamong⟩ := exists_combineAll hP hxs
    obtain ⟨b, hb, hamong'⟩ := exists_combineAll hP hys
    obtain ⟨u, hu, -⟩ := exists_combine hP hamong hamong'
    refine ⟨a, b, u, ha, hb, hu, ?_⟩
    rw [combineAll_append hP hxs hys, ha, hb]
    exact hu

/-- The library's own kinds are lawful. -/
theorem lawful_ownKind : Lawful OwnKind where
  type_eq {k k'} hk hk' hname := by
    obtain ⟨type, -, -, htype⟩ := oneType_ownKind
    rw [htype k hk, htype k' hk', hname]
  rule_eq := by
    rintro t kind kind' (h | h | h) (h' | h' | h') hname <;> cases h <;> cases h' <;> rfl
  assoc := by
    obtain ⟨hnames, hdescription, hprovenance⟩ := AttributeKind.orderless_own
    rintro t kind (h | h | h) <;> cases h
    · exact hnames.assoc
    · exact hdescription.assoc
    · exact hprovenance.assoc

/-- A description and then a name. -/
def describedTable : Attributes where
  toList := [⟨.labels, .description, .singleton "rows by key"⟩, ⟨.candidates, .names, .singleton "table"⟩]
  nodup := by decide

/-- Merged into a set that has a name, it adds its own name to that and puts its description last. -/
theorem combine_monoid_laws_table : ∃ u,
    combine (.singleton .names (.singleton "list")) describedTable = .ok u ∧
      u.names = ["names", "description"] ∧
      u.find? .names = .ok (some (.ofList ["list", "table"])) := by
  have hlist : (singleton .names (.singleton "list")).Among OwnKind := fun a ha => by
    obtain rfl := List.mem_singleton.1 ha
    exact .inl rfl
  have htable : describedTable.Among OwnKind := fun a ha => by
    rcases List.mem_pair.1 ha with rfl | rfl
    · exact .inr (.inl rfl)
    · exact .inl rfl
  obtain ⟨u, hu, -, hnames, hfind⟩ :=
    (combine_monoid_laws lawful_ownKind).2.2.1 _ _ hlist htable
  obtain ⟨x, y, hx, hy, hxy⟩ := hfind .candidates .names (.inl rfl)
  obtain rfl : some (SortedSet.singleton "list") = x := Except.ok.inj hx
  obtain rfl : some (SortedSet.singleton "table") = y := Except.ok.inj hy
  exact ⟨u, hu, hnames, hxy⟩

/-- Of two rules under one name, the one that is used depends on the grouping. -/
theorem not_assoc_of_two_rules : ¬∀ κ κ' : AttributeKind .text, κ.name = κ'.name →
    (∀ a b c, κ.combine (κ.combine a b) c = κ.combine a (κ.combine b c)) →
    (∀ a b c, κ'.combine (κ'.combine a b) c = κ'.combine a (κ'.combine b c)) →
    ∀ a b c, ((singleton κ a).combine (singleton κ' b) >>= fun ab => ab.combine (singleton κ' c)) =
      ((singleton κ' b).combine (singleton κ' c) >>= fun bc => (singleton κ a).combine bc) := by
  intro hall
  let appending : AttributeKind .text := ⟨"", (· ++ ·), fun _ => none, none⟩
  let replacing : AttributeKind .text := ⟨"", keepLater, fun _ => none, none⟩
  have heq := congrArg (· >>= fun s => s.find? appending)
    (hall appending replacing rfl (fun _ _ _ => String.append_assoc) (fun _ _ _ => rfl) "a" "b" "c")
  have hvalues : "a" ++ "b" ++ "c" = "a" ++ "c" := Option.some.inj (Except.ok.inj heq)
  exact absurd hvalues (by decide)

/-- **One type for each name and associative rules are not enough.** If a name has two rules, the grouping
of sets matters. And if one type of values for each name is asked for in every set alone, there may be no
merge of two sets at all. -/
theorem not_forall_combine_assoc :
    (¬∀ P : AnyKind → Prop,
      (∀ k k' : AnyKind, P k → P k' → k.2.name = k'.2.name → k.1 = k'.1) →
      (∀ (τ : ValueType) (κ : AttributeKind τ), P ⟨τ, κ⟩ → ∀ a b c,
        κ.combine (κ.combine a b) c = κ.combine a (κ.combine b c)) →
      ∀ s t u : Attributes, s.Among P → t.Among P → u.Among P →
        (s.combine t >>= fun st => st.combine u) = (t.combine u >>= fun tu => s.combine tu)) ∧
    ¬∀ s t : Attributes, (∀ a ∈ s.toList ++ t.toList, ∀ x y z, a.kind.combine (a.kind.combine x y) z =
      a.kind.combine x (a.kind.combine y z)) → ∃ u, s.combine t = .ok u := by
  constructor
  · intro hall
    refine not_assoc_of_two_rules fun κ κ' hname hκ hκ' a b c => ?_
    have hsingle : ∀ {P : AnyKind → Prop} {κ : AttributeKind .text} {v : String}, P ⟨.text, κ⟩ →
        (singleton κ v).Among P := fun hκ a ha => by
      obtain rfl := List.mem_singleton.1 ha
      exact hκ
    refine hall (fun k => k = ⟨.text, κ⟩ ∨ k = ⟨.text, κ'⟩) ?_ ?_ _ _ _ (hsingle (.inl rfl))
      (hsingle (.inr rfl)) (hsingle (.inr rfl))
    · rintro k k' (rfl | rfl) (rfl | rfl) - <;> rfl
    · rintro τ κ₀ (h | h) <;> cases h
      · exact hκ
      · exact hκ'
  · intro hall
    obtain ⟨u, hu⟩ := hall
      (singleton (⟨"note", keepLater, some, none⟩ : AttributeKind .text) "five")
      (singleton (⟨"note", keepLater, fun _ => none, none⟩ : AttributeKind .number) 5) (by
        intro a ha
        rcases List.mem_pair.1 ha with rfl | rfl <;> exact fun _ _ _ => rfl)
    cases hu

end Attributes

end SchemaGraph
