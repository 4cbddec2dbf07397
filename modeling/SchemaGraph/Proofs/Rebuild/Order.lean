import SchemaGraph.Proofs.DepthFirst
import SchemaGraph.Proofs.DraftGrowth
import SchemaGraph.Proofs.Rebuild.Derived

/-!
# The order of a rebuilding

A rebuilding without groups goes through the old generation in the way of a depth-first search
(`SchemaGraph.Derivation.search`). It is done with a node when it has a counterpart for it, and the
nodes that the search meets again from below are those that get a placeholder on the way
(`SchemaGraph.Derivation.Follows`). The search looks at the old generation only, so it can be known
beforehand.

What nodes become depends on it if nodes with placeholders are not looked for, as in substitutions.
A node that is to be stored under an identity which another node had before shares the counterpart
of that node, unless it has a placeholder: then it is kept apart
(`SchemaGraph.Derivation.Kept`), with a counterpart of its own that no other node is ever given. So
two nodes share a counterpart exactly if they are to be stored under one identity and neither is
kept apart (`SchemaGraph.Derivation.Follows.imageOf_eq_iff`).
-/

namespace SchemaGraph

namespace Rebuild

variable {σ : Type} {w : Workspace} {bad : Fault → Prop} {s : σ}

/-- Going through a list does to `s` what each visit does to it. -/
theorem ends_mapM_foldl {α β : Type} {f : α → Rebuild β} (good : Workspace → σ → Prop)
    (step : σ → α → σ) {as : List α}
    (hf : ∀ a ∈ as, ∀ w s, good w s → Ends (f a w) bad fun out => good out.2 (step s a))
    (hw : good w s) : Ends (as.mapM f w) bad fun out => good out.2 (as.foldl step s) := by
  induction as generalizing w s with
  | nil => exact hw
  | cons a as ih =>
    rw [List.mapM_cons]
    refine ends_bind (hf a (by simp) w s hw) fun b w₁ hw₁ => ?_
    exact ends_bind (ih (fun a' ha' => hf a' (by simp [ha'])) hw₁) fun _ _ h => h

/-- Replacing the children of a node does to `s` what each visit does to it. -/
theorem ends_mapChildrenM_foldl {f : Ref → Rebuild Ref} (good : Workspace → σ → Prop)
    (step : σ → Ref → σ) {node : Node}
    (hf : ∀ c ∈ node.children, ∀ w s, good w s → Ends (f c w) bad fun out => good out.2 (step s c))
    (hw : good w s) :
    Ends (node.mapChildrenM f w) bad fun out => good out.2 (node.children.foldl step s) := by
  cases node with
  | primitive k => exact hw
  | enum cases => exact hw
  | array items => exact ends_bind (hf items (by simp [Node.children]) w s hw) fun _ _ h => h
  | map values => exact ends_bind (hf values (by simp [Node.children]) w s hw) fun _ _ h => h
  | object properties =>
    rw [Node.children, List.foldl_map]
    have hone : ∀ p ∈ properties, ∀ w s, good w s →
        Ends ((do return { p with type := ← f p.type } : Rebuild Property) w) bad fun out =>
          good out.2 (step s p.type) := fun p hp w s hw =>
      ends_bind (hf p.type (List.mem_map_of_mem hp) w s hw) fun _ _ h => h
    exact ends_bind (ends_mapM_foldl good (fun s (p : Property) => step s p.type) hone hw) fun _ _ h => h
  | union members => exact ends_bind (ends_mapM_foldl good step hf hw) fun _ _ h => h
  | intersection members => exact ends_bind (ends_mapM_foldl good step hf hw) fun _ _ h => h

end Rebuild

namespace Derivation

open Rebuild

variable {d : Derivation} {w w' : Workspace} {s : Search} {i j index : Nat} {r : Ref}
  {identity identity' : Identity}

/-! ### What is stored where -/

/-- The old node at `index` is to be stored under the identity. -/
def Identified (d : Derivation) (w : Workspace) (index : Nat) (identity : Identity) : Prop :=
  ∃ attributes, d.Ready w index identity.1 attributes ∧ attributes.identityTexts = identity.2

/-- The two old nodes are to be stored under one identity. -/
def Alike (d : Derivation) (w : Workspace) (i j : Nat) : Prop :=
  ∃ identity, d.Identified w i identity ∧ d.Identified w j identity

/-- The old node is kept apart: it was met again from below, and a node that is to be stored under
its identity was there before. -/
def Kept (d : Derivation) (w : Workspace) (s : Search) (index : Nat) : Prop :=
  index ∈ s.reentered ∧ ∃ i, s.Before i index ∧ d.Alike w i index

theorem Ready.identified {node : Node} {attributes : Attributes}
    (h : d.Ready w index node attributes) :
    d.Identified w index (node, attributes.identityTexts) :=
  ⟨attributes, h, rfl⟩

theorem Identified.unique (h : d.Identified w index identity)
    (h' : d.Identified w index identity') : identity = identity' := by
  obtain ⟨a, hready, htexts⟩ := h
  obtain ⟨a', hready', htexts'⟩ := h'
  obtain ⟨n, hn, -, hnode⟩ := hready.node
  obtain ⟨n', hn', -, hnode'⟩ := hready'.node
  obtain rfl := Option.some.inj (hn.symm.trans hn')
  obtain rfl := Except.ok.inj (hready.attributes.symm.trans hready'.attributes)
  exact Prod.ext (hnode.trans hnode'.symm) (htexts.symm.trans htexts')

theorem Identified.grow (h : d.Identified w index identity) (hgrows : w.Grows w') :
    d.Identified w' index identity := by
  obtain ⟨a, hready, htexts⟩ := h
  exact ⟨a, hready.grow hgrows, htexts⟩

/-- What is to be stored under some identity is never to be stored under another one. -/
theorem Identified.iff_of_grows (h : d.Identified w index identity) (hgrows : w.Grows w') :
    d.Identified w' index identity' ↔ d.Identified w index identity' := by
  refine ⟨fun h' => ?_, fun h' => h'.grow hgrows⟩
  rw [← (h.grow hgrows).unique h']
  exact h

theorem Sound.exists_identified (hw : d.Sound w) (h : w.counterparts.find? index = some r) :
    ∃ identity, d.Identified w index identity := by
  obtain ⟨node, a, _, hstands⟩ := hw.counterpart h
  exact ⟨_, hstands.ready.identified⟩

theorem Sound.exists_holds (hw : d.Sound w) (h : w.counterparts.find? index = some r) :
    ∃ n, w.draft.Holds r n := by
  obtain ⟨_, _, _, hstands⟩ := hw.counterpart h
  exact hstands.exists_holds

theorem Sound.exists_holds_of_known (hw : d.Sound w)
    (h : w.draft.identities.find? identity = some r) : ∃ n, w.draft.Holds r n :=
  ⟨_, (hw.identity h).1⟩

theorem alike_iff_of_grows (hgrows : w.Grows w') (hi : d.Identified w i identity)
    (hj : d.Identified w j identity') : d.Alike w' i j ↔ d.Alike w i j :=
  exists_congr fun _ => and_congr (hi.iff_of_grows hgrows) (hj.iff_of_grows hgrows)

/-! ### The search -/

/-- The old nodes that are visited from the one at an index. -/
def below (d : Derivation) (index : Nat) : List Nat := (d.old.childrenAt index).map d.goal

/-- The search of the old generation from its roots. -/
def search (d : Derivation) : Search :=
  d.old.roots.entries.foldl
    (fun s e => Search.visit d.below (d.old.size + 1) [] (d.goal e.2) s) .start

/-- The rebuilding has come as far as the search, and counterparts are shared as described. -/
structure Follows (d : Derivation) (w : Workspace) (s : Search) : Prop where
  done : ∀ {i}, (w.counterparts.find? i).isSome ↔ i ∈ s.done
  reentered : ∀ {i}, (w.placeholders.find? i).isSome ↔ i ∈ s.reentered ∧ i ∉ s.done
  identity_inj : ∀ {identity identity' r}, w.draft.identities.find? identity = some r →
    w.draft.identities.find? identity' = some r → identity = identity'
  known : ∀ {i identity}, i ∈ s.done → d.Identified w i identity →
    w.draft.identities.contains identity = true
  shared : ∀ {i identity r}, w.counterparts.find? i = some r → d.Identified w i identity →
    ¬d.Kept w s i → w.draft.identities.find? identity = some r
  kept : ∀ {i r}, w.counterparts.find? i = some r → d.Kept w s i →
    (∀ j, w.counterparts.find? j = some r → j = i) ∧
      ∀ identity, w.draft.identities.find? identity ≠ some r
  below : ∀ {i j}, i ∈ s.done → j ∈ d.below i → j ∈ s.reentered ∨ s.Before j i
  nodup : s.done.Nodup

theorem follows_workspace : d.Follows d.workspace .start where
  done := by simp [workspace, Search.start, EmptyCollection.emptyCollection]
  reentered := by simp [workspace, Search.start, EmptyCollection.emptyCollection]
  identity_inj := fun h => by
    simp [workspace, Draft.ofGeneration, EmptyCollection.emptyCollection] at h
  known := fun h => by simp [Search.start] at h
  shared := fun h => by simp [workspace, EmptyCollection.emptyCollection] at h
  kept := fun h => by simp [workspace, EmptyCollection.emptyCollection] at h
  below := fun h => by simp [Search.start] at h
  nodup := List.nodup_nil

namespace Follows

theorem mem_done (h : d.Follows w s) (hi : w.counterparts.find? i = some r) : i ∈ s.done :=
  h.done.1 (Option.isSome_of_mem hi)

/-- Nothing depends on more than the four tables. -/
theorem of_same (h : d.Follows w s) (hcounterparts : w'.counterparts = w.counterparts)
    (hplaceholders : w'.placeholders = w.placeholders)
    (hidentities : w'.draft.identities = w.draft.identities) : d.Follows w' s := by
  obtain ⟨draft, counterparts, placeholders, lossDeclared, journal⟩ := w
  obtain ⟨draft', counterparts', placeholders', lossDeclared', journal'⟩ := w'
  obtain rfl : counterparts' = counterparts := hcounterparts
  obtain rfl : placeholders' = placeholders := hplaceholders
  have hready : ∀ {i n a},
      d.Ready ⟨draft', counterparts', placeholders', lossDeclared', journal'⟩ i n a ↔
        d.Ready ⟨draft, counterparts', placeholders', lossDeclared, journal⟩ i n a :=
    ⟨fun h => ⟨h.met, h.node, h.attributes⟩, fun h => ⟨h.met, h.node, h.attributes⟩⟩
  have hidentified : ∀ {i identity},
      d.Identified ⟨draft', counterparts', placeholders', lossDeclared', journal'⟩ i identity ↔
        d.Identified ⟨draft, counterparts', placeholders', lossDeclared, journal⟩ i identity :=
    exists_congr fun _ => and_congr_left fun _ => hready
  have hkept : ∀ {i},
      d.Kept ⟨draft', counterparts', placeholders', lossDeclared', journal'⟩ s i ↔
        d.Kept ⟨draft, counterparts', placeholders', lossDeclared, journal⟩ s i :=
    and_congr_right fun _ => exists_congr fun _ => and_congr_right fun _ =>
      exists_congr fun _ => and_congr hidentified hidentified
  refine ⟨h.done, h.reentered, fun ha hb => ?_, fun hi hid => ?_, fun hi hid hnot => ?_,
    fun hi hk => ?_, h.below, h.nodup⟩
  · rw [hidentities] at ha hb
    exact h.identity_inj ha hb
  · rw [hidentities]
    exact h.known hi (hidentified.1 hid)
  · rw [hidentities]
    exact h.shared hi (hidentified.1 hid) (mt hkept.2 hnot)
  · rw [hidentities]
    exact h.kept hi (hkept.1 hk)

/-- An identity is known exactly if a node that is done was to be stored under it. -/
theorem contains_iff (h : d.Follows w s) (hsound : d.Sound w) :
    w.draft.identities.contains identity = true ↔ ∃ i, i ∈ s.done ∧ d.Identified w i identity := by
  constructor
  · intro hcontains
    obtain ⟨t, ht⟩ := Option.isSome_iff_exists.1 hcontains
    obtain ⟨-, i, a, hready, htexts, hi⟩ := hsound.identity ht
    exact ⟨i, h.mem_done hi, a, hready, htexts⟩
  · rintro ⟨i, hi, hid⟩
    exact h.known hi hid

theorem exists_identified (h : d.Follows w s) (hsound : d.Sound w) (hi : i ∈ s.done) :
    ∃ identity, d.Identified w i identity := by
  obtain ⟨t, ht⟩ := Option.isSome_iff_exists.1 (h.done.2 hi)
  exact hsound.exists_identified ht

/-- The search is done with no more nodes than there are. -/
theorem length_done_le (h : d.Follows w s) (hsound : d.Sound w) :
    s.done.length ≤ d.old.size := by
  have hsub : s.done ⊆ List.range d.old.size := by
    intro i hi
    obtain ⟨_, _, hready, -⟩ := h.exists_identified hsound hi
    obtain ⟨_, hn, -⟩ := hready.node
    exact List.mem_range.2 (Generation.lt_size_of_node? hn)
  simpa using h.nodup.length_le_of_subset hsub

/-- Whether a node that is done is kept apart does not change. -/
theorem kept_iff_of_mem {s' : Search} (h : d.Follows w s) (hsound : d.Sound w)
    (hgrows : w.Grows w') (hi : i ∈ s.done) (hreentered : i ∈ s'.reentered ↔ i ∈ s.reentered)
    (hbefore : ∀ j, s'.Before j i ↔ s.Before j i) : d.Kept w' s' i ↔ d.Kept w s i := by
  refine and_congr hreentered (exists_congr fun j => ?_)
  rw [hbefore]
  refine and_congr_right fun hj => ?_
  obtain ⟨_, hid⟩ := h.exists_identified hsound hi
  obtain ⟨_, hid'⟩ := h.exists_identified hsound hj.mem
  exact alike_iff_of_grows hgrows hid' hid

/-! ### A node is met again -/

/-- A node on the path is met again: it has a placeholder, or is given one. -/
theorem reserve (h : d.Follows w s) (hsound : d.Sound w) (hgrows : w.Grows w')
    (hsettled : w.counterparts.find? index = none)
    (hcounterparts : w'.counterparts = w.counterparts)
    (hidentities : w'.draft.identities = w.draft.identities)
    (hplaceholders : ∀ i, (w'.placeholders.find? i).isSome ↔
      i = index ∨ (w.placeholders.find? i).isSome) : d.Follows w' (s.reenter index) := by
  have hindex : index ∉ s.done := fun hmem => by simpa [hsettled] using h.done.2 hmem
  have hreenter : ∀ {i}, i ∈ (s.reenter index).reentered ↔ i = index ∨ i ∈ s.reentered :=
    List.mem_cons
  have hkept : ∀ {i}, i ∈ s.done → (d.Kept w' (s.reenter index) i ↔ d.Kept w s i) := by
    intro i hi
    refine h.kept_iff_of_mem hsound hgrows hi (hreenter.trans ?_) fun _ => Iff.rfl
    exact or_iff_right fun heq => hindex (heq ▸ hi)
  have hidentified : ∀ {i identity}, i ∈ s.done → d.Identified w' i identity →
      d.Identified w i identity := fun hi hid => by
    obtain ⟨_, hid'⟩ := h.exists_identified hsound hi
    exact (hid'.iff_of_grows hgrows).1 hid
  refine ⟨hcounterparts ▸ h.done, fun {i} => ?_, hidentities ▸ h.identity_inj, fun hi hid => ?_,
    fun {i identity r} hi hid hnot => ?_, fun {i r} hi hk => ?_, fun hi hj => ?_, h.nodup⟩
  · rw [hplaceholders, h.reentered, hreenter]
    change _ ↔ _ ∧ i ∉ s.done
    grind
  · rw [hidentities]
    exact h.known hi (hidentified hi hid)
  · rw [hcounterparts] at hi
    have hdone := h.mem_done hi
    rw [hidentities]
    exact h.shared hi (hidentified hdone hid) (mt (hkept hdone).2 hnot)
  · rw [hcounterparts] at hi
    rw [hcounterparts, hidentities]
    exact h.kept hi ((hkept (h.mem_done hi)).1 hk)
  · exact (h.below hi hj).imp_left fun hmem => hreenter.2 (.inr hmem)

end Follows

/-! ### A node gets its counterpart -/

/-- How an old node gets the counterpart `r`, and what the table of identities is afterwards. -/
inductive Lands (w : Workspace) (index : Nat) (identity : Identity) (r : Ref) :
    OrderedMap Identity Ref → Prop
  /-- A node that has no placeholder shares what has its identity. -/
  | shared (hplace : w.placeholders.find? index = none)
    (hfind : w.draft.identities.find? identity = some r) :
    Lands w index identity r w.draft.identities
  /-- A node that has a placeholder is kept apart from what has its identity. -/
  | apart (hplace : (w.placeholders.find? index).isSome)
    (hknown : w.draft.identities.contains identity = true) (hempty : ∀ n, ¬w.draft.Holds r n) :
    Lands w index identity r w.draft.identities
  /-- A node under a new identity is stored in a slot in which nothing was. -/
  | new (hnew : w.draft.identities.find? identity = none) (hempty : ∀ n, ¬w.draft.Holds r n) :
    Lands w index identity r (w.draft.identities.insert identity r)

theorem Lands.find? {identities : OrderedMap Identity Ref} {t : Ref}
    (h : Lands w index identity r identities) (ht : identities.find? identity' = some t) :
    w.draft.identities.find? identity' = some t ∨
      (identity' = identity ∧ t = r ∧ ∀ n, ¬w.draft.Holds r n) := by
  cases h with
  | shared => exact .inl ht
  | apart => exact .inl ht
  | new _ hempty =>
    exact (OrderedMap.eq_or_of_find?_insert ht).imp_right fun h => ⟨h.1, h.2, hempty⟩

theorem Lands.contains {identities : OrderedMap Identity Ref}
    (h : Lands w index identity r identities) : identities.contains identity = true := by
  cases h with
  | shared _ hfind => exact Option.isSome_of_mem hfind
  | apart _ hknown _ => exact hknown
  | new =>
    rw [OrderedMap.contains, OrderedMap.find?_insert, if_pos rfl]
    rfl

namespace Follows

section Settle

variable {draft : Draft} (h : d.Follows w s) (hsound : d.Sound w)
  (hidentified : d.Identified w index identity) (hsettled : w.counterparts.find? index = none)
  (hgrows : w.Grows (w.settleAs index r draft)) (hlands : Lands w index identity r draft.identities)

theorem mem_done_leave : i ∈ (s.leave index).done ↔ i ∈ s.done ∨ i = index := by
  simp [Search.leave]

theorem counterpart_settleAs {t : Ref}
    (hi : (w.settleAs index r draft).counterparts.find? i = some t) :
    (i = index ∧ t = r) ∨ w.counterparts.find? i = some t := by
  rw [Workspace.counterparts_settleAs] at hi
  split at hi
  · next heq => exact .inl ⟨heq.symm, (Option.some.inj hi).symm⟩
  · exact .inr hi

include h

theorem not_mem_done (hsettled : w.counterparts.find? index = none) : index ∉ s.done :=
  fun hmem => by simpa [hsettled] using h.done.2 hmem

include hsound hgrows

theorem identified_of_settleAs (hi : i ∈ s.done)
    (hid : d.Identified (w.settleAs index r draft) i identity') : d.Identified w i identity' := by
  obtain ⟨_, hid'⟩ := h.exists_identified hsound hi
  exact (hid'.iff_of_grows hgrows).1 hid

theorem kept_settleAs_iff_of_mem (hi : i ∈ s.done) :
    d.Kept (w.settleAs index r draft) (s.leave index) i ↔ d.Kept w s i :=
  h.kept_iff_of_mem hsound hgrows hi Iff.rfl fun _ => Search.before_leave_iff_of_mem hi

include hidentified hsettled

/-- The node is kept apart if it has a placeholder and its identity is known. -/
theorem kept_settleAs_iff : d.Kept (w.settleAs index r draft) (s.leave index) index ↔
    (w.placeholders.find? index).isSome ∧ w.draft.identities.contains identity = true := by
  have hindex := h.not_mem_done hsettled
  rw [h.contains_iff hsound, h.reentered, and_iff_left hindex]
  refine and_congr_right fun _ => exists_congr fun i => ?_
  rw [Search.before_leave_self_iff hindex]
  refine and_congr_right fun hi => ?_
  obtain ⟨_, hi'⟩ := h.exists_identified hsound hi
  rw [alike_iff_of_grows hgrows hi' hidentified]
  constructor
  · rintro ⟨identity', hid, hid'⟩
    exact hidentified.unique hid' ▸ hid
  · exact fun hid => ⟨identity, hid, hidentified⟩

include hlands

/-- A node that is not kept apart is found under its identity. -/
theorem shared_settleAs {t : Ref}
    (hi : (w.settleAs index r draft).counterparts.find? i = some t)
    (hid : d.Identified (w.settleAs index r draft) i identity')
    (hnot : ¬d.Kept (w.settleAs index r draft) (s.leave index) i) :
    draft.identities.find? identity' = some t := by
  rcases counterpart_settleAs hi with ⟨rfl, rfl⟩ | hi
  · obtain rfl := (hidentified.grow hgrows).unique hid
    rw [h.kept_settleAs_iff hsound hidentified hsettled hgrows] at hnot
    generalize draft.identities = identities at hlands
    cases hlands with
    | shared _ hfind => exact hfind
    | apart hplace hknown _ => exact absurd ⟨hplace, hknown⟩ hnot
    | new => rw [OrderedMap.find?_insert, if_pos rfl]
  · have hdone := h.mem_done hi
    refine hgrows.identity (h.shared hi (h.identified_of_settleAs hsound hgrows hdone hid) ?_)
    exact mt (h.kept_settleAs_iff_of_mem hsound hgrows hdone).2 hnot

/-- A node that is kept apart has a counterpart of its own: what was nobody's is given to nobody
else, and what was somebody's is not given to this node. -/
theorem kept_settleAs {t : Ref} (hi : (w.settleAs index r draft).counterparts.find? i = some t)
    (hk : d.Kept (w.settleAs index r draft) (s.leave index) i) :
    (∀ j, (w.settleAs index r draft).counterparts.find? j = some t → j = i) ∧
      ∀ identity', draft.identities.find? identity' ≠ some t := by
  rcases counterpart_settleAs hi with ⟨rfl, rfl⟩ | hi'
  · rw [h.kept_settleAs_iff hsound hidentified hsettled hgrows] at hk
    have hempty : (∀ n, ¬w.draft.Holds t n) ∧ draft.identities = w.draft.identities := by
      generalize draft.identities = identities at hlands
      cases hlands with
      | shared hplace _ => simp [hplace] at hk
      | apart _ _ hempty => exact ⟨hempty, rfl⟩
      | new hnew _ => simp [OrderedMap.contains, hnew] at hk
    refine ⟨fun j hj => ?_, fun identity' hid => ?_⟩
    · rcases counterpart_settleAs hj with ⟨rfl, -⟩ | hj
      · rfl
      · obtain ⟨n, hn⟩ := hsound.exists_holds hj
        exact absurd hn (hempty.1 n)
    · obtain ⟨n, hn⟩ := hsound.exists_holds_of_known (hempty.2 ▸ hid)
      exact hempty.1 n hn
  · obtain ⟨halone, hunknown⟩ := h.kept hi'
      ((h.kept_settleAs_iff_of_mem hsound hgrows (h.mem_done hi')).1 hk)
    have hother : t ≠ r := by
      rintro rfl
      obtain ⟨n, hn⟩ := hsound.exists_holds hi'
      clear hi hk hgrows
      generalize draft.identities = identities at hlands
      cases hlands with
      | shared _ hfind => exact hunknown _ hfind
      | apart _ _ hempty => exact hempty n hn
      | new _ hempty => exact hempty n hn
    refine ⟨fun j hj => ?_, fun identity' hid => ?_⟩
    · exact halone j ((counterpart_settleAs hj).resolve_left fun heq => hother heq.2)
    · exact hunknown _ ((hlands.find? hid).resolve_right fun heq => hother heq.2.1)

/-- **An old node gets its counterpart**, and the search is done with it. -/
theorem settleAs : d.Follows (w.settleAs index r draft) (s.leave index) := by
  have hindex := h.not_mem_done hsettled
  refine ⟨fun {i} => ?_, fun {i} => ?_, fun {a b t} ha hb => ?_, fun {i identity'} hi hid => ?_,
    h.shared_settleAs hsound hidentified hsettled hgrows hlands,
    h.kept_settleAs hsound hidentified hsettled hgrows hlands, fun {i j} hi hj => ?_,
    h.nodup.append (List.nodup_singleton index) (List.disjoint_singleton.2 hindex)⟩
  · rw [mem_done_leave, ← h.done, Workspace.counterparts_settleAs]
    grind
  · rw [mem_done_leave, Workspace.placeholders_settleAs]
    have := h.reentered (i := i)
    change _ ↔ i ∈ s.reentered ∧ _
    grind
  · -- a new identity comes with a slot in which nothing was
    rcases hlands.find? ha with ha' | ⟨rfl, rfl, hnone⟩
    · rcases hlands.find? hb with hb' | ⟨rfl, rfl, hnone⟩
      · exact h.identity_inj ha' hb'
      · obtain ⟨n, hn⟩ := hsound.exists_holds_of_known ha'
        exact absurd hn (hnone n)
    · rcases hlands.find? hb with hb' | ⟨rfl, -, -⟩
      · obtain ⟨n, hn⟩ := hsound.exists_holds_of_known hb'
        exact absurd hn (hnone n)
      · rfl
  · rcases mem_done_leave.1 hi with hi | rfl
    · have hcontains := h.known hi (h.identified_of_settleAs hsound hgrows hi hid)
      obtain ⟨u, hu⟩ := Option.isSome_iff_exists.1 hcontains
      exact Option.isSome_of_mem (hgrows.identity hu)
    · obtain rfl := (hidentified.grow hgrows).unique hid
      exact hlands.contains
  · change j ∈ s.reentered ∨ _
    rcases mem_done_leave.1 hi with hi | rfl
    · rw [Search.before_leave_iff_of_mem hi]
      exact h.below hi hj
    · -- a child has an image: it is done, or has a placeholder
      rw [Search.before_leave_self_iff hindex]
      obtain ⟨a, hready, -⟩ := hidentified
      obtain ⟨n, hn, hchildren, -⟩ := hready.node
      obtain ⟨c, hc, rfl⟩ := List.mem_map.1 hj
      rw [Generation.childrenAt, hn] at hc
      have himage := hchildren c hc
      rw [Workspace.image?, Option.isSome_or, Bool.or_eq_true, h.done, h.reentered] at himage
      exact himage.symm.imp_left And.left

end Settle

end Follows

end Derivation

end SchemaGraph
