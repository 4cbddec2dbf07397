import SchemaGraph.Proofs.Merging

/-!
# What merged attributes add to an identity

The identity of a node has the texts that its attributes add, sorted by name. So it depends only on
which texts there are (`SchemaGraph.Attributes.identityTexts_eq_iff`), and not on the order of the
attributes.

Merged attributes may add other texts than either side does: what a kind makes of two values is its
own affair. Most kinds make of two values with one text a value with this text again, as scalars and
sets do (`SchemaGraph.KeepsTexts`). Then sets of attributes that add the same still add it when they
are merged (`SchemaGraph.Attributes.identityTexts_combineAll`).
-/

namespace SchemaGraph

/-- What is combined of two values with one text has this text again. -/
def KeepsTexts (P : AnyKind → Prop) : Prop :=
  ∀ a b c : Attribute, P a.anyKind → P b.anyKind → b.name = a.name →
    b.identityText = a.identityText → a.combine b = .ok c → c.identityText = a.identityText

/-- The library's own kinds take no part in identities. -/
theorem OwnKind.identityText_eq_none {a : Attribute} (h : OwnKind a.anyKind) :
    a.identityText = none := by
  obtain ⟨type, kind, value⟩ := a
  rcases h with h | h | h <;> cases h <;> rfl

theorem keepsTexts_ownKind : KeepsTexts OwnKind := by
  intro a b c ha _ _ _ hc
  rw [ha.identityText_eq_none,
    OwnKind.identityText_eq_none ((Attribute.anyKind_combine hc).symm ▸ ha)]

namespace Attributes

variable {s t u : Attributes} {a : Attribute} {e : String × String} {P : AnyKind → Prop}
  {texts : List (String × String)}

/-! ### Texts -/

/-- Some attribute adds this text to the identity, under its name. -/
def Adds (s : Attributes) (e : String × String) : Prop :=
  ∃ a ∈ s.toList, a.name = e.1 ∧ a.identityText = some e.2

theorem mem_identityTexts : e ∈ s.identityTexts ↔ s.Adds e := by
  rw [identityTexts, List.mem_mergeSort, List.mem_filterMap]
  refine exists_congr fun a => and_congr_right fun _ => ?_
  rw [Option.map_eq_some_iff]
  constructor
  · rintro ⟨text, htext, rfl⟩
    exact ⟨rfl, htext⟩
  · rintro ⟨hname, htext⟩
    exact ⟨e.2, htext, Prod.ext hname rfl⟩

/-- Attributes of the library's own kinds add nothing. -/
theorem identityTexts_eq_nil (h : s.Among OwnKind) : s.identityTexts = [] := by
  refine List.eq_nil_iff_forall_not_mem.2 fun e he => ?_
  obtain ⟨a, ha, -, htext⟩ := mem_identityTexts.1 he
  simp [(h a ha).identityText_eq_none] at htext

/-- **An identity depends only on which texts there are.** -/
theorem identityTexts_eq_iff : s.identityTexts = t.identityTexts ↔ ∀ e, s.Adds e ↔ t.Adds e := by
  refine ⟨fun h e => by rw [← mem_identityTexts, h, mem_identityTexts], fun h => ?_⟩
  -- names are distinct, so each text is there once
  have hnames : ∀ s : Attributes,
      ((s.toList.filterMap fun a => a.identityText.map (a.name, ·)).map Prod.fst).Nodup := by
    intro s
    refine List.pairwise_map.2 (List.pairwise_filterMap.2 ((List.pairwise_map.1 s.nodup).imp ?_))
    intro a b hne p hp q hq hname
    obtain ⟨_, -, rfl⟩ := Option.map_eq_some_iff.1 hp
    obtain ⟨_, -, rfl⟩ := Option.map_eq_some_iff.1 hq
    exact hne hname
  have hmem : ∀ (s : Attributes) (e : String × String),
      e ∈ (s.toList.filterMap fun a => a.identityText.map (a.name, ·)) ↔ s.Adds e := fun s _ => by
    rw [← mem_identityTexts, identityTexts, List.mem_mergeSort]
  refine mergeSort_eq_of_perm
    ((List.perm_ext_iff_of_nodup (hnames s).of_map (hnames t).of_map).2 fun e => ?_)
    fun p hp q hq => List.inj_on_of_nodup_map (hnames s) hp hq
  rw [hmem, hmem, h]

/-- The order of attributes makes no difference. -/
theorem identityTexts_eq_of_perm (h : s.toList.Perm t.toList) :
    s.identityTexts = t.identityTexts :=
  identityTexts_eq_iff.2 fun _ => exists_congr fun _ => and_congr_left' h.mem_iff

/-- Of sets that add the same, attributes of one name have one text. -/
theorem identityText_eq_of_identityTexts_eq {b : Attribute} (h : s.identityTexts = t.identityTexts)
    (ha : a ∈ s.toList) (hb : b ∈ t.toList) (hname : b.name = a.name) :
    b.identityText = a.identityText := by
  have hsame := identityTexts_eq_iff.1 h
  have hfind : ∀ {s : Attributes} {a : Attribute} {text : String}, a ∈ s.toList →
      s.Adds (a.name, text) → a.identityText = some text := by
    rintro s a text ha ⟨b, hb, hname, htext⟩
    rwa [List.inj_on_of_nodup_map s.nodup ha hb hname.symm]
  refine Option.ext fun text => ⟨fun htext => ?_, fun htext => ?_⟩
  · exact hfind ha (hname ▸ (hsame _).2 ⟨b, hb, rfl, htext⟩)
  · exact hfind hb (hname ▸ (hsame _).1 ⟨a, ha, rfl, htext⟩)

/-! ### Merged texts -/

/-- The sets do not disagree about the text of any name. -/
def Agrees (s t : Attributes) : Prop :=
  ∀ b ∈ s.toList, ∀ a ∈ t.toList, a.name = b.name → a.identityText = b.identityText

section Merge

variable (hP : KeepsTexts P) (hs : s.Among P) (ht : t.Among P) (hagrees : s.Agrees t)
  (ha : a ∈ t.toList)

include hP hs ht hagrees ha

/-- What stands in the place of an attribute has its name and its text. -/
theorem name_and_text_of_combine {b c : Attribute} (hb : b ∈ s.toList) (hname : b.name = a.name)
    (hc : b.combine a = .ok c) : c.name = b.name ∧ c.identityText = b.identityText :=
  ⟨Attribute.name_combine hc,
    hP _ _ _ (hs _ hb) (ht _ ha) hname.symm (hagrees _ hb _ ha hname.symm) hc⟩

theorem agrees_merge (hu : s.merge a = .ok u) : u.Agrees t := by
  intro c hc a' ha' hname
  rcases (Attribute.mem_mergeInto s.nodup (merge_toList hu)).1 hc with
    ⟨hc, -⟩ | ⟨rfl, -⟩ | ⟨b, hb, hb', hcombine⟩
  · exact hagrees c hc a' ha' hname
  · rw [List.inj_on_of_nodup_map t.nodup ha' ha hname]
  · obtain ⟨hcname, hctext⟩ := name_and_text_of_combine hP hs ht hagrees ha hb hb' hcombine
    rw [hctext]
    exact hagrees b hb a' ha' (hname.trans hcname)

/-- What an attribute adds is still added after a merge, by it or by what stands in its place. -/
theorem Adds.merge (h : s.Adds e) (hu : s.merge a = .ok u) : u.Adds e := by
  obtain ⟨b, hb, hname, htext⟩ := h
  by_cases hb' : b.name = a.name
  · obtain ⟨c, hc, hcombine⟩ :=
      Attribute.exists_combine_of_mergeInto s.nodup (merge_toList hu) hb hb'
    obtain ⟨hcname, hctext⟩ := name_and_text_of_combine hP hs ht hagrees ha hb hb' hcombine
    exact ⟨c, hc, hcname.trans hname, hctext.trans htext⟩
  · exact ⟨b, (Attribute.mem_mergeInto s.nodup (merge_toList hu)).2 (.inl ⟨hb, hb'⟩), hname, htext⟩

/-- An attribute of a set that agrees with another one adds its text when it is merged into it, and
nothing else changes. -/
theorem adds_merge_iff (hu : s.merge a = .ok u) :
    u.Adds e ↔ s.Adds e ∨ (a.name = e.1 ∧ a.identityText = some e.2) := by
  have hmem := fun c => Attribute.mem_mergeInto (c := c) s.nodup (merge_toList hu)
  constructor
  · rintro ⟨c, hc, hname, htext⟩
    rcases (hmem c).1 hc with ⟨hc, -⟩ | ⟨rfl, -⟩ | ⟨b, hb, hb', hcombine⟩
    · exact .inl ⟨c, hc, hname, htext⟩
    · exact .inr ⟨hname, htext⟩
    · obtain ⟨hcname, hctext⟩ := name_and_text_of_combine hP hs ht hagrees ha hb hb' hcombine
      exact .inl ⟨b, hb, hcname.symm.trans hname, hctext.symm.trans htext⟩
  · rintro (hadds | ⟨hname, htext⟩)
    · exact hadds.merge hP hs ht hagrees ha hu
    · by_cases hthere : a.name ∈ s.toList.map Attribute.name
      · -- the set has the text already, since it agrees
        obtain ⟨b, hb, hb'⟩ := List.mem_map.1 hthere
        have hadds : s.Adds e :=
          ⟨b, hb, hb'.trans hname, (hagrees b hb a ha hb'.symm).symm.trans htext⟩
        exact hadds.merge hP hs ht hagrees ha hu
      · exact ⟨a, (hmem a).2 (.inr (.inl ⟨rfl, hthere⟩)), hname, htext⟩

end Merge

/-- **What is merged of two sets that add the same adds it again.** -/
theorem identityTexts_combine (hP : KeepsTexts P) (hs : s.Among P) (ht : t.Among P)
    (h : s.identityTexts = t.identityTexts) (hu : s.combine t = .ok u) :
    u.identityTexts = s.identityTexts := by
  have hagrees : s.Agrees t := fun b hb a ha hname =>
    identityText_eq_of_identityTexts_eq h hb ha hname
  refine identityTexts_eq_iff.2 fun e => ?_
  have hadds : ∀ {s v : Attributes} {a : Attribute}, s.Among P ∧ s.Agrees t → a ∈ t.toList →
      s.merge a = .ok v → (v.Among P ∧ v.Agrees t) ∧
        (v.Adds e ↔ s.Adds e ∨ (a.name = e.1 ∧ a.identityText = some e.2)) := by
    rintro s v a ⟨hs, hagrees⟩ ha hv
    have hamong := (merge_ends hs (ht a ha)).of_eq_ok hv
    exact ⟨⟨hamong, agrees_merge hP hs ht hagrees ha hv⟩, adds_merge_iff hP hs ht hagrees ha hv⟩
  have hboth : u.Adds e ↔ s.Adds e ∨ t.Adds e := exists_mem_combine ⟨hs, hagrees⟩ hadds hu
  rw [hboth, identityTexts_eq_iff.1 h, or_self]

theorem identityTexts_foldlM_combine {sets : List Attributes} (hP : KeepsTexts P)
    (hs : s.Among P) (htexts : s.identityTexts = texts)
    (hsets : ∀ t ∈ sets, t.Among P ∧ t.identityTexts = texts)
    (hu : sets.foldlM combine s = .ok u) : u.identityTexts = texts := by
  induction sets generalizing s with
  | nil =>
    obtain rfl := Except.ok.inj hu
    exact htexts
  | cons t rest ih =>
    rw [List.foldlM_cons] at hu
    obtain ⟨ht, htexts'⟩ := hsets t (by simp)
    obtain ⟨v, hv, hu⟩ := exists_of_bind_eq_ok hu
    refine ih ((combine_ends hs ht).of_eq_ok hv) ?_ (fun t ht => hsets t (by simp [ht])) hu
    rw [identityTexts_combine hP hs ht (htexts.trans htexts'.symm) hv, htexts]

/-- So does what is merged of any number of them. -/
theorem identityTexts_combineAll {sets : List Attributes} (hP : KeepsTexts P)
    (hsets : ∀ s ∈ sets, s.Among P ∧ s.identityTexts = texts) (hne : sets ≠ [])
    (hu : combineAll sets = .ok u) : u.identityTexts = texts := by
  obtain ⟨s, rest, rfl⟩ := List.exists_cons_of_ne_nil hne
  rw [combineAll, List.foldlM_cons] at hu
  obtain ⟨hs, htexts⟩ := hsets s (by simp)
  exact identityTexts_foldlM_combine hP hs htexts (fun t ht => hsets t (by simp [ht])) hu

end Attributes

end SchemaGraph
