import SchemaGraph.Proofs.Merging

/-!
# Merging name by name

What a set of attributes has under a name (`SchemaGraph.Attributes.under`) can be told name by name
after a merge: it is the join of what the two sides have there
(`SchemaGraph.Attributes.combine_ends_joined`). A merge fails exactly if under some name the two sides
have values of different types.

So nothing but types decides whether attributes can be merged in a row, and what is under one name
after a fold of merges is not touched by what is under the others.
-/

namespace SchemaGraph

namespace Attribute

variable {a b c : Attribute}

theorem combine_ends_iff : Ends (a.combine b) (fun _ => b.type ≠ a.type) fun c =>
    b.type = a.type ∧ c.anyKind = a.anyKind := by
  by_cases htype : b.type = a.type
  · exact ((combine_ends htype.symm).mono_bad fun _ => False.elim).mono fun _ h => ⟨htype, h⟩
  · rw [combine, read, dif_neg htype]
    exact htype

/-- What is under a name in one set, joined with what is there in another. -/
def join : Option Attribute → Option Attribute → Except Fault (Option Attribute)
  | none, found => .ok found
  | some a, none => .ok (some a)
  | some a, some b => (a.combine b).map some

@[simp]
theorem join_none_left {found : Option Attribute} : join none found = .ok found := rfl

@[simp]
theorem join_none_right {found : Option Attribute} : join found none = .ok found := by
  cases found <;> rfl

@[simp]
theorem join_some_some : join (some a) (some b) = (a.combine b).map some := rfl

/-- Values of one type are joined by the rule of the earlier kind. -/
theorem join_mk_mk {t : ValueType} {kind kind' : AttributeKind t} {u v : t.Carrier} :
    join (some ⟨t, kind, u⟩) (some ⟨t, kind', v⟩) = .ok (some ⟨t, kind, kind.combine u v⟩) := by
  rw [join_some_some, combine_eq_ok]
  rfl

/-- The type of the first of the two that is there is the type of both. -/
theorem join_ends {x y : Option Attribute} :
    Ends (join x y) (fun _ => ∃ a b, x = some a ∧ y = some b ∧ b.type ≠ a.type) fun z =>
      z.map type = (x.map type).or (y.map type) ∧
        ∀ a b, x = some a → y = some b → b.type = a.type := by
  cases x with
  | none => exact ⟨by simp, nofun⟩
  | some a =>
    cases y with
    | none => exact ⟨by simp, nofun⟩
    | some b =>
      refine Ends.map ((combine_ends_iff.mono fun c hc => ?_).mono_bad fun _ hne =>
        ⟨a, b, rfl, rfl, hne⟩)
      obtain ⟨htype, hkind⟩ := hc
      refine ⟨?_, ?_⟩
      · have hsame : c.type = a.type := congrArg Sigma.fst hkind
        simp [hsame]
      · rintro _ _ ⟨⟩ ⟨⟩
        exact htype

end Attribute

namespace Attributes

variable {s t u : Attributes} {a b : Attribute} {name : String}

/-- The attribute of the name. -/
def under (s : Attributes) (name : String) : Option Attribute := s.toList.find? (·.name = name)

/-- The type of the value under the name. -/
def typeUnder (s : Attributes) (name : String) : Option ValueType :=
  (s.under name).map Attribute.type

@[simp]
theorem under_empty : (∅ : Attributes).under name = none := rfl

theorem under_eq_some_iff : s.under name = some a ↔ a ∈ s.toList ∧ a.name = name := by
  constructor
  · intro h
    exact ⟨List.mem_of_find?_eq_some h, by simpa using List.find?_some h⟩
  · rintro ⟨hmem, rfl⟩
    rw [under]
    cases hfind : s.toList.find? (·.name = a.name) with
    | none => simpa using List.find?_eq_none.1 hfind a hmem
    | some b =>
      have hname : b.name = a.name := by simpa using List.find?_some hfind
      rw [List.inj_on_of_nodup_map s.nodup (List.mem_of_find?_eq_some hfind) hmem hname]

theorem under_eq_none_iff : s.under name = none ↔ name ∉ s.names := by
  rw [under, List.find?_eq_none, names, List.mem_map]
  simp only [decide_eq_true_eq, not_exists, not_and]

/-- What is read of a kind is what is under its name. -/
theorem find?_eq_under {type : ValueType} (kind : AttributeKind type) :
    s.find? kind = match s.under kind.name with
      | none => .ok none
      | some a => (a.read kind).map some :=
  rfl

/-- What is under a name is the same in the two sets, or under other names. -/
theorem under_merge (h : s.merge a = .ok t) :
    Attribute.join (s.under name) (if a.name = name then some a else none) =
      .ok (t.under name) := by
  have hmem := fun c => Attribute.mem_mergeInto (c := c) s.nodup (merge_toList h)
  by_cases hname : a.name = name
  · subst hname
    rw [if_pos rfl]
    cases hs : s.under a.name with
    | none =>
      have hnot : a.name ∉ s.toList.map Attribute.name := under_eq_none_iff.1 hs
      rw [under_eq_some_iff.2 ⟨(hmem a).2 (.inr (.inl ⟨rfl, hnot⟩)), rfl⟩]
      rfl
    | some b =>
      obtain ⟨hb, hbname⟩ := under_eq_some_iff.1 hs
      obtain ⟨c, hc, hcombine⟩ :=
        Attribute.exists_combine_of_mergeInto s.nodup (merge_toList h) hb hbname
      have hcname : c.name = a.name := (Attribute.name_combine hcombine).trans hbname
      rw [Attribute.join_some_some, hcombine, under_eq_some_iff.2 ⟨hc, hcname⟩]
      rfl
  · rw [if_neg hname, Attribute.join_none_right]
    refine congrArg _ (Option.ext fun c => ?_)
    rw [under_eq_some_iff, under_eq_some_iff, hmem]
    constructor
    · rintro ⟨hc, rfl⟩
      exact ⟨.inl ⟨hc, Ne.symm hname⟩, rfl⟩
    · rintro ⟨⟨hc, -⟩ | ⟨rfl, -⟩ | ⟨b, -, hb, hcombine⟩, rfl⟩
      · exact ⟨hc, rfl⟩
      · exact absurd rfl hname
      · exact absurd (hb.symm.trans (Attribute.name_combine hcombine).symm) hname

/-- The new attribute has the type of the one that has its name. -/
theorem merge_ends_iff :
    Ends (s.merge a) (fun _ => ∃ τ, s.typeUnder a.name = some τ ∧ a.type ≠ τ) fun _ =>
      ∀ τ, s.typeUnder a.name = some τ → a.type = τ := by
  have hlist : ∀ as : List Attribute, Ends (a.mergeInto as)
      (fun _ => ∃ b, as.find? (·.name = a.name) = some b ∧ a.type ≠ b.type)
      fun _ => ∀ b, as.find? (·.name = a.name) = some b → a.type = b.type := by
    intro as
    induction as with
    | nil => exact nofun
    | cons b rest ih =>
      rw [Attribute.mergeInto, List.find?_cons]
      by_cases hname : b.name = a.name
      · rw [if_pos hname]
        simp only [hname, decide_true, Option.some.injEq, forall_eq', exists_eq_left']
        exact Ends.map (Attribute.combine_ends_iff.mono fun _ h => h.1)
      · rw [if_neg hname]
        simp only [hname, decide_false]
        exact ih.map
  have hends := hlist s.toList
  simp only [typeUnder, under, Option.map_eq_some_iff]
  rw [merge]
  split
  · next f hf =>
    obtain ⟨b, hb, hne⟩ := hends.of_eq_error hf
    exact ⟨b.type, ⟨b, hb, rfl⟩, hne⟩
  · next list hl =>
    rintro τ ⟨b, hb, rfl⟩
    exact hends.of_eq_ok hl b hb

/-- No name has values of different types in the two sets. -/
def TypesAgree (s t : Attributes) : Prop :=
  ∀ name τ τ', s.typeUnder name = some τ → t.typeUnder name = some τ' → τ' = τ

theorem foldlM_merge_ends {as : List Attribute} (has : (as.map Attribute.name).Nodup) :
    Ends (as.foldlM merge s)
      (fun _ => ∃ name τ a, s.typeUnder name = some τ ∧ as.find? (·.name = name) = some a ∧
        a.type ≠ τ)
      fun u => ∀ name,
        Attribute.join (s.under name) (as.find? (·.name = name)) = .ok (u.under name) := by
  induction as generalizing s with
  | nil => exact fun name => Attribute.join_none_right
  | cons a rest ih =>
    obtain ⟨hnot, hrest⟩ := List.nodup_cons.1 has
    have hnone : rest.find? (·.name = a.name) = none :=
      List.find?_eq_none.2 fun b hb => by
        simpa using fun hname => hnot (List.mem_map.2 ⟨b, hb, hname⟩)
    rw [List.foldlM_cons]
    have hmerge : Ends (s.merge a)
        (fun _ => ∃ name τ b, s.typeUnder name = some τ ∧
          (a :: rest).find? (·.name = name) = some b ∧ b.type ≠ τ)
        fun v => s.merge a = .ok v := by
      refine (merge_ends_iff.with_eq.mono fun v hv => hv.1).mono_bad fun _ => ?_
      rintro ⟨τ, hτ, hne⟩
      exact ⟨a.name, τ, a, hτ, by simp, hne⟩
    refine hmerge.bind fun v hv => ?_
    have hunder : ∀ name, Attribute.join (s.under name) (if a.name = name then some a else none) =
        .ok (v.under name) := fun _ => under_merge hv
    -- the names of the rest are others than that of the first
    have hother : ∀ name, a.name ≠ name → v.under name = s.under name := fun name hne => by
      have hsame := hunder name
      rw [if_neg hne, Attribute.join_none_right] at hsame
      exact (Except.ok.inj hsame).symm
    refine ((ih hrest).mono fun u hu name => ?_).mono_bad ?_
    · by_cases hname : a.name = name
      · subst hname
        have hthis := hunder a.name
        have hlast := hu a.name
        rw [if_pos rfl] at hthis
        rw [hnone, Attribute.join_none_right] at hlast
        rw [List.find?_cons_of_pos (by simp), hthis, hlast]
      · rw [List.find?_cons_of_neg (by simpa using hname), ← hother name hname]
        exact hu name
    · rintro f ⟨name, τ, b, hτ, hb, hne⟩
      have hname : a.name ≠ name := by
        rintro rfl
        rw [hnone] at hb
        cases hb
      refine ⟨name, τ, b, ?_, ?_, hne⟩
      · rw [typeUnder, ← hother name hname]
        exact hτ
      · rw [List.find?_cons_of_neg (by simpa using hname)]
        exact hb

/-- **A merge joins what is under each name**, and fails exactly if there is a name under which the
types differ. -/
theorem combine_ends_joined :
    Ends (s.combine t) (fun _ => ¬s.TypesAgree t) fun u =>
      s.TypesAgree t ∧ ∀ name, Attribute.join (s.under name) (t.under name) = .ok (u.under name) := by
  have hjoined : Ends (s.combine t)
      (fun _ => ∃ name τ a, s.typeUnder name = some τ ∧ t.under name = some a ∧ a.type ≠ τ)
      fun u => ∀ name, Attribute.join (s.under name) (t.under name) = .ok (u.under name) := by
    rw [combine]
    split
    · next hempty =>
      intro name
      rw [eq_empty_of_isEmpty hempty, under_empty, Attribute.join_none_left]
    · exact foldlM_merge_ends t.nodup
  have hagree : ∀ u : Attributes,
      (∀ name, Attribute.join (s.under name) (t.under name) = .ok (u.under name)) →
        s.TypesAgree t := by
    intro u hu name τ τ' hτ hτ'
    obtain ⟨a, ha, rfl⟩ := Option.map_eq_some_iff.1 hτ
    obtain ⟨b, hb, rfl⟩ := Option.map_eq_some_iff.1 hτ'
    exact (Attribute.join_ends.of_eq_ok (hu name)).2 a b ha hb
  refine (hjoined.mono fun u hu => ⟨hagree u hu, hu⟩).mono_bad ?_
  rintro f ⟨name, τ, a, hτ, ha, hne⟩ hagree
  exact hne (hagree name τ a.type hτ (by rw [typeUnder, ha]; rfl))

/-- The type of a name after a merge is that of the first side that has the name. -/
theorem typeUnder_combine (h : s.combine t = .ok u) :
    u.typeUnder name = (s.typeUnder name).or (t.typeUnder name) :=
  (Attribute.join_ends.of_eq_ok ((combine_ends_joined.of_eq_ok h).2 name)).1

end Attributes

end SchemaGraph
