import SchemaGraph.Proofs.DraftHistory

/-!
# Identities that drift

The identity of a node is taken from the attributes it is asked for with, and recorded then. Its
attributes go on to change: more are merged into them when the node is asked for again, and they
can be written to at any time, even before the node is in its slot. Nothing brings the record up to
date. So the identity texts of a node's attributes may not be those of its identity any more: it
has drifted (`SchemaGraph.Draft.Drifted`).

Storing nodes goes by attributes as they are now (`SchemaGraph.Draft.FollowsAttributes`) exactly as
long as no node has drifted (`SchemaGraph.Draft.Runs.followsAttributes_iff`). That a drift can
always be noticed is the longer half: the node has to be asked for again just as it was the first
time, and this must not fail, whatever was merged into its attributes since. It does not, because a
type that values have under some name is never changed (`SchemaGraph.Attributes.typed_combine`).
-/

namespace SchemaGraph

/-- The first entry of a key is there. -/
theorem mem_of_lookupEntry {α β : Type} [DecidableEq α] {key : α} {value : β}
    {entries : List (α × β)} (h : lookupEntry key entries = some value) :
    (key, value) ∈ entries := by
  induction entries with
  | nil => cases h
  | cons e rest ih => grind [lookupEntry]

/-! ### Types of attributes -/

namespace Attribute

variable {a b c : Attribute} {as bs : List Attribute}

/-- Attributes that were combined had values of one type. -/
theorem type_eq_of_combine (h : a.combine b = .ok c) : b.type = a.type := by
  unfold combine read at h
  split at h
  · assumption
  · cases h

/-- An attribute can be merged into a list that has no values of another type under its name. -/
theorem mergeInto_ends_of_type (h : ∀ b ∈ as, b.name = a.name → b.type = a.type) :
    Ends (mergeInto a as) (fun _ => False) fun _ => True := by
  induction as with
  | nil => trivial
  | cons b rest ih =>
    rw [mergeInto]
    split
    · next hname =>
      exact .map ((combine_ends (h b (by simp) hname)).mono fun _ _ => trivial)
    · exact .map (ih fun c hc => h c (by simp [hc]))

end Attribute

namespace Attributes

variable {s t u : Attributes} {a : Attribute} {name : String} {type : ValueType}

/-- The set has values of the type under the name. -/
def Typed (s : Attributes) (name : String) (type : ValueType) : Prop :=
  ∃ a ∈ s.toList, a.name = name ∧ a.type = type

theorem Typed.unique {type' : ValueType} (h : s.Typed name type) (h' : s.Typed name type') :
    type = type' := by
  obtain ⟨a, ha, hname, rfl⟩ := h
  obtain ⟨b, hb, hname', rfl⟩ := h'
  rw [List.inj_on_of_nodup_map s.nodup ha hb (hname.trans hname'.symm)]

theorem typed_merge (h : s.merge a = .ok u) :
    u.Typed name type ↔ s.Typed name type ∨ (a.name = name ∧ a.type = type) := by
  have hlist := merge_toList h
  have hiff := fun c => Attribute.mem_mergeInto (c := c) s.nodup hlist
  have htype : ∀ {b c : Attribute}, b.combine a = .ok c → c.type = b.type := fun hc =>
    congrArg Sigma.fst (Attribute.anyKind_combine hc)
  constructor
  · rintro ⟨c, hc, rfl, rfl⟩
    rcases (hiff c).1 hc with ⟨hc, -⟩ | ⟨rfl, -⟩ | ⟨b, hb, -, hcombine⟩
    · exact .inl ⟨c, hc, rfl, rfl⟩
    · exact .inr ⟨rfl, rfl⟩
    · exact .inl ⟨b, hb, (Attribute.name_combine hcombine).symm, (htype hcombine).symm⟩
  · rintro (⟨b, hb, rfl, rfl⟩ | ⟨rfl, rfl⟩)
    · by_cases hname : b.name = a.name
      · obtain ⟨c, hc, hcombine⟩ :=
          Attribute.exists_combine_of_mergeInto s.nodup hlist hb hname
        exact ⟨c, hc, Attribute.name_combine hcombine, htype hcombine⟩
      · exact ⟨b, (hiff b).2 (.inl ⟨hb, hname⟩), rfl, rfl⟩
    · by_cases hmem : a.name ∈ s.toList.map Attribute.name
      · obtain ⟨b, hb, hname⟩ := List.mem_map.1 hmem
        obtain ⟨c, hc, hcombine⟩ :=
          Attribute.exists_combine_of_mergeInto s.nodup hlist hb hname
        exact ⟨c, hc, (Attribute.name_combine hcombine).trans hname,
          (htype hcombine).trans (Attribute.type_eq_of_combine hcombine).symm⟩
      · exact ⟨a, (hiff a).2 (.inr (.inl ⟨rfl, hmem⟩)), rfl, rfl⟩

/-- **A union has the types of both sides.** -/
theorem typed_combine (h : s.combine t = .ok u) :
    u.Typed name type ↔ s.Typed name type ∨ t.Typed name type :=
  exists_mem_combine (p := fun _ => True) trivial
    (fun _ _ hm => ⟨trivial, typed_merge hm⟩) h

/-- A set that has an attribute of this name and type takes it in. -/
theorem merge_ends_of_typed (h : s.Typed a.name a.type) :
    Ends (s.merge a) (fun _ => False) fun _ => True := by
  have hends : Ends (a.mergeInto s.toList) (fun _ => False) fun _ => True :=
    Attribute.mergeInto_ends_of_type fun b hb hname => Typed.unique ⟨b, hb, hname, rfl⟩ h
  rw [merge]
  split
  · next hf => exact hends.of_eq_error hf
  · trivial

/-- Attributes can be merged into a set that has values of the same types already. -/
theorem combine_ends_of_typed (h : ∀ {name type}, t.Typed name type → s.Typed name type) :
    Ends (s.combine t) (fun _ => False) fun _ => True := by
  have hends : Ends (t.toList.foldlM merge s) (fun _ => False) fun u =>
      ∀ a ∈ t.toList, u.Typed a.name a.type := by
    refine Ends.foldlM (fun s hs a ha => ?_) fun a ha => h ⟨a, ha, rfl, rfl⟩
    exact (merge_ends_of_typed (hs a ha)).with_eq.mono fun u hu b hb =>
      (typed_merge hu.1).2 (.inl (hs b hb))
  rw [combine]
  split
  · trivial
  · exact hends.mono fun _ _ => trivial

end Attributes

namespace AttributeStore

variable {s s' : AttributeStore} {r : Ref} {attributes : Attributes} {index k : Nat} {name : String}
  {type : ValueType}

theorem Writes.typed (h : s.Writes index attributes s') :
    (s'.atIndex k).Typed name type ↔
      (s.atIndex k).Typed name type ∨ (k = index ∧ attributes.Typed name type) := by
  by_cases hk : k = index
  · rw [hk, Attributes.typed_combine h.here]
    simp
  · rw [h.elsewhere k hk]
    simp [hk]

/-- A new node has what it was given. -/
theorem Founds.typed {stamps : Bool} (h : s.Founds stamps r attributes s')
    (htyped : (s.atIndex k).Typed name type ∨ (k = r.index ∧ attributes.Typed name type)) :
    (s'.atIndex k).Typed name type := by
  obtain ⟨mid, hadd, hstamp⟩ := h
  have hmid := (writes_of_add hadd).typed.2 htyped
  cases stamps with
  | false =>
    obtain rfl : s' = mid := hstamp
    exact hmid
  | true => exact (writes_of_add hstamp).typed.2 (.inl hmid)

theorem atIndex_addRoot {root : String} (h : s.addRoot root attributes = .ok s') :
    s'.atIndex k = s.atIndex k := by
  obtain ⟨roots, rfl⟩ := exists_roots_of_addRoot h
  rfl

end AttributeStore

namespace Draft

variable {start b c : Draft} {calls : List Call} {node n : Node} {attributes : Attributes}
  {forwarding : Option Ref} {r known : Ref} {identity : Identity}

/-! ### Asking again -/

/-- Storing a node merges its attributes into those of the node that has its identity afterwards,
and takes no type away. -/
theorem Interned.typed {name : String} {type : ValueType} {k : Nat}
    (h : b.Interned n attributes forwarding r c)
    (hknown : c.identities.find? (n, attributes.identityTexts) = some known)
    (htyped : (b.store.atIndex k).Typed name type ∨
      (k = known.index ∧ attributes.Typed name type)) : (c.store.atIndex k).Typed name type := by
  cases h with
  | shared hid hstore =>
    obtain rfl := Option.some.inj (hid.symm.trans hknown)
    exact (AttributeStore.writes_of_add hstore).typed.2 htyped
  | forwarded hid hstore hempty =>
    obtain rfl := Option.some.inj (hid.symm.trans hknown)
    exact (AttributeStore.writes_of_add hstore).typed.2 htyped
  | stored hid hstore =>
    rw [OrderedMap.find?_insert, if_pos rfl] at hknown
    obtain rfl := Option.some.inj hknown
    exact hstore.typed htyped
  | filled hid hstore hempty =>
    rw [OrderedMap.find?_insert, if_pos rfl] at hknown
    obtain rfl := Option.some.inj hknown
    exact hstore.typed htyped

/-- The node could be asked for again with these attributes: its children have slots, and the node
that has its identity takes in the attributes. -/
structure Recalls (b : Draft) (identity : Identity) (node : Node) (attributes : Attributes) :
    Prop where
  hasSlot : ∀ c ∈ node.children, b.HasSlot c
  typed : ∀ {known name type}, b.identities.find? identity = some known →
    attributes.Typed name type → (b.store.atIndex known.index).Typed name type

/-- What could be asked for again still can. -/
theorem Recalls.mono {filled : Ref → Prop} (h : b.Recalls identity node attributes)
    (hc : b.Extends filled c)
    (hfind : ∀ {s}, c.identities.find? identity = some s → b.identities.find? identity = some s)
    (htyped : ∀ {k name type}, (b.store.atIndex k).Typed name type →
      (c.store.atIndex k).Typed name type) : c.Recalls identity node attributes where
  hasSlot s hs := hc.hasSlot (h.hasSlot s hs)
  typed hknown ha := htyped (h.typed (hfind hknown) ha)

/-- An identity that was asked for belongs to some node. -/
theorem Interned.exists_find? (h : b.Interned n attributes forwarding r c) :
    ∃ known, c.identities.find? (n, attributes.identityTexts) = some known := by
  cases h with
  | shared hid _ => exact ⟨_, hid⟩
  | forwarded hid _ _ => exact ⟨_, hid⟩
  | stored _ _ => exact ⟨_, by rw [OrderedMap.find?_insert, if_pos rfl]⟩
  | filled _ _ _ => exact ⟨_, by rw [OrderedMap.find?_insert, if_pos rfl]⟩

/-- No operation takes a type away from the attributes of a node. -/
theorem typed_of_run {e : Edit} {a : e.Answer} (hrun : e.run b = .ok (a, c)) {k : Nat}
    {name : String} {type : ValueType} (h : (b.store.atIndex k).Typed name type) :
    (c.store.atIndex k).Typed name type := by
  cases e with
  | reserve =>
    obtain ⟨rfl, rfl⟩ := Prod.mk.inj (Except.ok.inj hrun)
    exact h
  | intern node attributes forwarding =>
    have hinterned := Build.interned_of_intern hrun
    obtain ⟨known, hknown⟩ := hinterned.exists_find?
    exact hinterned.typed hknown (.inl h)
  | annotate r attributes =>
    obtain ⟨store, hadd, rfl⟩ := Build.exists_of_addAttributes hrun
    exact (AttributeStore.writes_of_add hadd).typed.2 (.inl h)
  | bindRoot root r =>
    obtain ⟨roots, rfl⟩ := Build.exists_of_addRoot hrun
    exact h
  | annotateRoot root attributes =>
    obtain ⟨store, hadd, rfl⟩ := Build.exists_of_addRootAttributes hrun
    change (store.atIndex k).Typed name type
    rw [AttributeStore.atIndex_addRoot hadd]
    exact h

/-- **What was asked for once can be asked for again.** -/
theorem Runs.recalls (hstart : start.Fresh) (h : start.Runs calls b)
    (hmem : ⟨.intern node attributes forwarding, r⟩ ∈ calls) :
    b.Recalls (start.identityOf node attributes) node attributes := by
  induction h with
  | nil => cases hmem
  | @call calls b c e a h hrun ih =>
    have hextends := Edit.run_extends hrun
    have hrecorded := h.recorded hstart
    have hrecorded' := (h.call hrun).recorded hstart
    rcases List.mem_append.1 hmem with hmem | hmem
    · -- an identity that is known stays with its node
      obtain ⟨known, hknown, -⟩ := hrecorded.answered hmem
      refine (ih hmem).mono hextends (fun {s} hs => ?_) (typed_of_run hrun)
      have hfirst : start.firstAnswer? (calls ++ [⟨e, a⟩]) (start.identityOf node attributes) =
          some known := firstAnswer?_concat_of_some (hrecorded.identities _ ▸ hknown)
      rw [hrecorded'.identities, hfirst] at hs
      rw [hknown, hs]
    · cases List.mem_singleton.1 hmem
      obtain ⟨n, hcanonical⟩ := Build.exists_canonical_of_intern hrun
      have hinterned := Build.interned_of_intern hrun
      rw [hrecorded.mapping, hrecorded.alphabetize] at hinterned
      exact ⟨fun s hs => hextends.hasSlot (hasSlot_of_canonical hcanonical s hs),
        fun hknown ha => hinterned.typed hknown (.inr ⟨rfl, ha⟩)⟩

/-- A node can be asked for again with the attributes it was asked for with first, and the answer
is the same. -/
theorem Runs.exists_intern (hstart : start.Fresh) (h : start.Runs calls b)
    (hfirst : start.firstAnswer? calls identity = some r) :
    ∃ node attributes c, start.identityOf node attributes = identity ∧
      Build.intern node attributes none b = .ok (r, c) := by
  have hrecorded := h.recorded hstart
  obtain ⟨call, hmem, hasked⟩ := List.mem_filterMap.1 (mem_of_lookupEntry hfirst)
  obtain ⟨e, a⟩ := call
  cases e with
  | intern node attributes forwarding =>
    obtain ⟨rfl, rfl⟩ := Prod.mk.inj (Option.some.inj hasked)
    have hrecalls := h.recalls hstart hmem
    have hid := (hrecorded.identities _).trans hfirst
    have hholds := hrecorded.indexed hid
    have hcanonical := canonical_eq_ok hrecalls.hasSlot
    rw [hrecorded.mapping, hrecorded.alphabetize] at hcanonical
    -- the node has values of all the types that come in
    have hends := AttributeStore.add_ends_of_combine hholds.1
      (Attributes.combine_ends_of_typed (hrecalls.typed hid))
    obtain ⟨store, hstore, -⟩ := hends.exists_ok fun _ => id
    refine ⟨node, attributes, { b with store }, rfl, ?_⟩
    rw [Build.intern_of_known hcanonical hid, hstore]
    rfl
  | reserve => cases hasked
  | annotate r attributes => cases hasked
  | bindRoot root r => cases hasked
  | annotateRoot root attributes => cases hasked

/-! ### Drift -/

/-- The identity texts of the attributes that a node has now. -/
def textsAt (b : Draft) (r : Ref) : List (String × String) :=
  (b.store.atIndex r.index).identityTexts

/-- The attributes of the node have not the identity texts any more that it was asked for with. -/
def Drifted (start : Draft) (calls : List Call) (b : Draft) (r : Ref) : Prop :=
  ∃ identity, start.firstAnswer? calls identity = some r ∧ b.textsAt r ≠ identity.2

/-- Storing a node goes by the attributes that nodes have now: it finds a node only if this has the
canonical form and the identity texts that were asked for, and makes one only if there is none that
has both, indirections aside that stand for other nodes. -/
structure FollowsAttributes (start : Draft) (calls : List Call) (b : Draft) : Prop where
  found : ∀ {node attributes r c}, Build.intern node attributes none b = .ok (r, c) → b.HasSlot r →
    b.Holds r (node.canonical start.mapping start.alphabetize) ∧
      b.textsAt r = attributes.identityTexts
  new : ∀ {node attributes r c}, Build.intern node attributes none b = .ok (r, c) → ¬b.HasSlot r →
    ∀ s, b.Holds s (node.canonical start.mapping start.alphabetize) →
      b.textsAt s = attributes.identityTexts → Forwarded start calls s

/-- **Storing nodes follows their attributes exactly as long as no node has drifted.** -/
theorem Runs.followsAttributes_iff (hstart : start.Fresh) (h : start.Runs calls b) :
    FollowsAttributes start calls b ↔ ∀ r, ¬Drifted start calls b r := by
  have hrecorded := h.recorded hstart
  constructor
  · rintro hfollows r ⟨identity, hfirst, hdrift⟩
    -- the node is found when it is asked for as it was the first time
    obtain ⟨node, attributes, c, rfl, hrun⟩ := h.exists_intern hstart hfirst
    have hid := (hrecorded.identities _).trans hfirst
    exact hdrift (hfollows.found hrun (hrecorded.indexed hid).hasSlot).2
  · intro hnone
    have htexts : ∀ {i s}, b.identities.find? i = some s → b.textsAt s = i.2 := fun {i s} hi => by
      by_contra hne
      exact hnone s ⟨i, hrecorded.identities i ▸ hi, hne⟩
    refine ⟨fun {node attributes r c} hrun hslot => ?_,
      fun {node attributes r c} hrun hslot s hs htext => ?_⟩
    · have hinterned := Build.interned_of_intern hrun
      rw [hrecorded.mapping, hrecorded.alphabetize] at hinterned
      cases hinterned with
      | shared hid hstore => exact ⟨hrecorded.indexed hid, htexts hid⟩
      | stored hid hstore => exact absurd hslot.2 (Nat.lt_irrefl _)
    · have hinterned := Build.interned_of_intern hrun
      rw [hrecorded.mapping, hrecorded.alphabetize] at hinterned
      cases hinterned with
      | shared hid hstore => exact absurd (hrecorded.indexed hid).hasSlot hslot
      | stored hid hstore =>
        -- a node with an identity would have had the one that was asked for
        refine (hrecorded.filled hs).resolve_left ?_
        rintro ⟨⟨n, texts⟩, hi⟩
        obtain rfl := (hrecorded.indexed hi).inj hs
        obtain rfl : texts = attributes.identityTexts := (htexts hi).symm.trans htext
        simp [hi] at hid

/-! ### A node that has drifted -/

/-- A kind of texts that take part in the identity of a node. -/
def tag : AttributeKind .text := ⟨"tag", keepLater, some, some id⟩

/-- A string is asked for without attributes and tagged afterwards. -/
def tagged : List Call :=
  [⟨.intern (.primitive .string) ∅ none, ⟨0, 0⟩⟩,
    ⟨.annotate ⟨0, 0⟩ (.singleton tag "x"), ()⟩]

/-- The tag is among the identity texts of the node's attributes, which its identity is without. -/
theorem exists_runs_tagged : ∃ b, (initial ⟨false⟩).Runs tagged b ∧
    b.textsAt ⟨0, 0⟩ = [("tag", "x")] := by
  have htexts : ((initial ⟨false⟩).replay tagged).map (textsAt · ⟨0, 0⟩) = some [("tag", "x")] := by
    decide +kernel
  obtain ⟨b, hb, htext⟩ := Option.map_eq_some_iff.1 htexts
  exact ⟨b, Runs.nil.replay hb, htext⟩

theorem firstAnswer?_tagged :
    (initial ⟨false⟩).firstAnswer? tagged (.primitive .string, []) = some ⟨0, 0⟩ := by
  decide +kernel

/-- Since the tagged string has drifted, storing nodes does not follow its attributes. -/
theorem followsAttributes_iff_tagged : ∃ b, (initial ⟨false⟩).Runs tagged b ∧
    ¬FollowsAttributes (initial ⟨false⟩) tagged b := by
  obtain ⟨b, hrun, htext⟩ := exists_runs_tagged
  refine ⟨b, hrun, fun hfollows => ?_⟩
  refine (hrun.followsAttributes_iff fresh_initial).1 hfollows ⟨0, 0⟩ ⟨_, firstAnswer?_tagged, ?_⟩
  simp [htext]

/-- **Storing nodes does not always follow their attributes**: the tagged string is found when a
string without a tag is asked for. -/
theorem not_forall_followsAttributes :
    ¬∀ (options : Options) (calls : List Call) (b : Draft), (initial options).Runs calls b →
      FollowsAttributes (initial options) calls b := by
  intro hall
  obtain ⟨b, hrun, htext⟩ := exists_runs_tagged
  obtain ⟨node, attributes, c, hidentity, hintern⟩ :=
    hrun.exists_intern fresh_initial firstAnswer?_tagged
  have hid := ((hrun.recorded fresh_initial).identities _).trans firstAnswer?_tagged
  have hslot := ((hrun.recorded fresh_initial).indexed hid).hasSlot
  have hfound := ((hall _ _ b hrun).found hintern hslot).2
  have hnone : attributes.identityTexts = [] := congrArg Prod.snd hidentity
  rw [htext, hnone] at hfound
  cases hfound

end Draft

end SchemaGraph
