import SchemaGraph.Proofs.Merging

/-!
# What storing a node does

The actions that store a node, as equations on drafts. Storing a node either finds its identity
or not, and either has a reserved slot to fill or not; each of the four cases changes the slots,
the identities and the attributes of one node in one way, and can only fail when the attributes
are merged. The callers of `SchemaGraph.Build.intern` and `SchemaGraph.Build.define` use these
equations and never look inside.
-/

namespace SchemaGraph

namespace Draft

variable {b : Draft} {node : Node}

/-- The draft has a slot for the reference. -/
def HasSlot (b : Draft) (r : Ref) : Prop := r.serial = b.serial ∧ r.index < b.size

theorem childFault?_eq_none_iff {r : Ref} : b.childFault? r = none ↔ b.HasSlot r := by
  unfold childFault? HasSlot
  grind

theorem canonical_eq_ok (h : ∀ c ∈ node.children, b.HasSlot c) :
    b.canonical node = .ok (node.canonical b.mapping b.alphabetize) := by
  have hnone : node.children.findSome? b.childFault? = none :=
    List.findSome?_eq_none_iff.2 fun c hc => childFault?_eq_none_iff.2 (h c hc)
  rw [canonical, hnone]

/-- The slot is reserved and still empty. -/
def IsEmptyAt (b : Draft) (r : Ref) : Prop :=
  r.serial = b.serial ∧ b.slots[r.index]? = some none

/-- The slot holds the node. -/
def Holds (b : Draft) (r : Ref) (node : Node) : Prop :=
  r.serial = b.serial ∧ b.slots[r.index]? = some (some node)

theorem IsEmptyAt.hasSlot {r : Ref} (h : b.IsEmptyAt r) : b.HasSlot r :=
  ⟨h.1, (Array.getElem?_eq_some_iff.1 h.2).1⟩

theorem Holds.hasSlot {r : Ref} (h : b.Holds r node) : b.HasSlot r :=
  ⟨h.1, (Array.getElem?_eq_some_iff.1 h.2).1⟩

theorem Holds.inj {r : Ref} {node' : Node} (h : b.Holds r node) (h' : b.Holds r node') :
    node = node' := by
  have heq := h.2.symm.trans h'.2
  simpa using heq

theorem Holds.not_isEmptyAt {r : Ref} (h : b.Holds r node) : ¬b.IsEmptyAt r := fun h' => by
  have heq := h.2.symm.trans h'.2
  simp at heq

/-- The reference that the next slot gets. -/
def nextRef (b : Draft) : Ref := ⟨b.serial, b.size⟩

/-- A slot that is reserved and filled at once. -/
theorem setIfInBounds_push_nextRef :
    (b.slots.push none).setIfInBounds b.nextRef.index (some node) = b.slots.push (some node) := by
  refine Array.ext_getElem? fun i => ?_
  rw [Array.getElem?_setIfInBounds, Array.getElem?_push, Array.getElem?_push]
  simp only [nextRef, size, Array.size_push]
  grind

section Slots

variable {r slot : Ref} {x : Option Node} {identities : OrderedMap Identity Ref}
  {store : AttributeStore} {forwarded : Bool}

theorem holds_push_iff (hserial : store.serial = b.store.serial) :
    ({ b with slots := b.slots.push x, identities, store, forwarded } : Draft).Holds r node ↔
      b.Holds r node ∨ (r = b.nextRef ∧ x = some node) := by
  obtain ⟨serial, index⟩ := r
  simp only [Holds, Draft.serial, hserial, Array.getElem?_push, nextRef, size, Ref.mk.injEq]
  grind

theorem isEmptyAt_push_iff (hserial : store.serial = b.store.serial) :
    ({ b with slots := b.slots.push x, identities, store, forwarded } : Draft).IsEmptyAt r ↔
      b.IsEmptyAt r ∨ (r = b.nextRef ∧ x = none) := by
  obtain ⟨serial, index⟩ := r
  simp only [IsEmptyAt, Draft.serial, hserial, Array.getElem?_push, nextRef, size, Ref.mk.injEq]
  grind

theorem holds_set_iff (hserial : store.serial = b.store.serial) (hslot : b.HasSlot slot) :
    ({ b with
      slots := b.slots.setIfInBounds slot.index x, identities, store, forwarded } :
        Draft).Holds r node ↔ if r = slot then x = some node else b.Holds r node := by
  obtain ⟨serial, index⟩ := r
  obtain ⟨serial', index'⟩ := slot
  obtain ⟨rfl, hlt⟩ := hslot
  simp only [Holds, Draft.serial, hserial, Array.getElem?_setIfInBounds, size, Ref.mk.injEq] at hlt ⊢
  grind

/-- A slot that is filled holds what it is filled with. -/
theorem holds_set_self (hserial : store.serial = b.store.serial) (hempty : b.IsEmptyAt slot) :
    ({ b with slots := b.slots.setIfInBounds slot.index (some node), identities, store, forwarded } :
      Draft).Holds slot node := by
  rw [holds_set_iff hserial hempty.hasSlot, if_pos rfl]

/-- What another slot holds stays when an empty slot is filled. -/
theorem Holds.set (h : b.Holds r node) (hserial : store.serial = b.store.serial)
    (hempty : b.IsEmptyAt slot) :
    ({ b with slots := b.slots.setIfInBounds slot.index x, identities, store, forwarded } :
      Draft).Holds r node := by
  have hne : r ≠ slot := fun heq => h.not_isEmptyAt (heq ▸ hempty)
  rw [holds_set_iff hserial hempty.hasSlot, if_neg hne]
  exact h

theorem isEmptyAt_set_iff (hserial : store.serial = b.store.serial) (hslot : b.HasSlot slot) :
    ({ b with
      slots := b.slots.setIfInBounds slot.index x, identities, store, forwarded } :
        Draft).IsEmptyAt r ↔ if r = slot then x = none else b.IsEmptyAt r := by
  obtain ⟨serial, index⟩ := r
  obtain ⟨serial', index'⟩ := slot
  obtain ⟨rfl, hlt⟩ := hslot
  simp only [IsEmptyAt, Draft.serial, hserial, Array.getElem?_setIfInBounds, size,
    Ref.mk.injEq] at hlt ⊢
  grind

theorem not_holds_nextRef : ¬b.Holds b.nextRef node := fun h => by
  have := h.hasSlot.2
  simp [nextRef] at this

theorem not_isEmptyAt_nextRef : ¬b.IsEmptyAt b.nextRef := fun h => by
  have := h.hasSlot.2
  simp [nextRef] at this

end Slots

end Draft

namespace Build

variable {b : Draft} {node n : Node} {attributes : Attributes} {known slot : Ref}

/-- An action that goes on with `k`, where its first part gives a result. -/
theorem bind_eq {α β : Type} {x : Build α} {k : α → Build β} {a : α} {c : Draft}
    (h : x b = .ok (a, c)) : (x >>= k) b = k a c := by
  change (x b >>= fun r => k r.1 r.2) = _
  rw [h]
  rfl

theorem fill_eq (h : b.IsEmptyAt slot) :
    fill slot node b =
      .ok ((), { b with slots := b.slots.setIfInBounds slot.index (some node) }) := by
  unfold fill
  rw [Ref.requireSerial, if_pos h.1, h.2]
  rfl

theorem forward_eq (h : b.IsEmptyAt slot) :
    forward slot known b =
      .ok ((), { b with
        slots := b.slots.setIfInBounds slot.index (some (.indirection known))
        forwarded := true }) := by
  rw [forward, bind_eq (fill_eq h)]
  rfl

theorem addAttributes_eq {r : Ref} :
    addAttributes r attributes b =
      (b.store.add r attributes).map fun store => ((), { b with store }) := by
  rw [addAttributes]
  cases b.store.add r attributes <;> rfl

/-- What is done after the attributes were merged is done to the merged draft. -/
theorem addAttributes_bind_eq {r : Ref} {α : Type} {k : Build α} :
    (addAttributes r attributes >>= fun _ => k) b =
      (b.store.add r attributes).bind fun store => k { b with store } := by
  change (addAttributes r attributes b >>= fun out => k out.2) = _
  rw [addAttributes_eq]
  cases b.store.add r attributes <;> rfl

/-- **A node whose identity is known is not stored again.** -/
theorem intern_of_known (hc : b.canonical node = .ok n)
    (hid : b.identities.find? (n, attributes.identityTexts) = some known) :
    intern node attributes none b =
      (b.store.add known attributes).map fun store => (known, { b with store }) := by
  rw [intern]
  rw [bind_eq (a := b) (c := b) rfl, bind_eq (a := n) (c := b) (by rw [hc]; rfl)]
  simp only [hid]
  rw [addAttributes_bind_eq]
  cases b.store.add known attributes <;> rfl

/-- **A reserved slot whose node turns out to be known becomes an indirection to it.** -/
theorem intern_forwarding_of_known (hc : b.canonical node = .ok n)
    (hid : b.identities.find? (n, attributes.identityTexts) = some known)
    (hslot : b.IsEmptyAt slot) :
    intern node attributes (some slot) b =
      (b.store.add known attributes).map fun store => (slot, { b with
        slots := b.slots.setIfInBounds slot.index (some (.indirection known))
        store
        forwarded := true }) := by
  rw [intern]
  rw [bind_eq (a := b) (c := b) rfl, bind_eq (a := n) (c := b) (by rw [hc]; rfl)]
  simp only [hid]
  rw [addAttributes_bind_eq]
  cases h : b.store.add known attributes with
  | error f => rfl
  | ok store =>
    have hserial : store.serial = b.store.serial := (AttributeStore.writes_of_add h).serial
    have hslot' : ({ b with store } : Draft).IsEmptyAt slot :=
      ⟨hslot.1.trans hserial.symm, hslot.2⟩
    change (forward slot known >>= fun _ => pure slot) { b with store } = _
    rw [bind_eq (forward_eq hslot')]
    rfl

/-- **A node whose identity is new gets a slot of its own.** -/
theorem intern_of_new (hc : b.canonical node = .ok n)
    (hid : b.identities.find? (n, attributes.identityTexts) = none) (hstamps : b.stamps = false) :
    intern node attributes none b =
      (b.store.add b.nextRef attributes).map fun store => (b.nextRef, { b with
        slots := b.slots.push (some n)
        identities := b.identities.insert (n, attributes.identityTexts) b.nextRef
        store }) := by
  have hempty : ({ b with slots := b.slots.push none } : Draft).IsEmptyAt b.nextRef := by
    refine ⟨rfl, ?_⟩
    simp [Draft.nextRef, Draft.size]
  rw [intern]
  rw [bind_eq (a := b) (c := b) rfl, bind_eq (a := n) (c := b) (by rw [hc]; rfl)]
  simp only [hid]
  rw [bind_eq (a := b.nextRef) (c := { b with slots := b.slots.push none }) rfl,
    bind_eq (fill_eq hempty), Draft.setIfInBounds_push_nextRef, bind_eq (a := ()) rfl,
    addAttributes_bind_eq]
  simp only [hstamps]
  rfl

/-- **A reserved slot is filled with a node whose identity is new.** -/
theorem intern_forwarding_of_new (hc : b.canonical node = .ok n)
    (hid : b.identities.find? (n, attributes.identityTexts) = none) (hstamps : b.stamps = false)
    (hslot : b.IsEmptyAt slot) :
    intern node attributes (some slot) b =
      (b.store.add slot attributes).map fun store => (slot, { b with
        slots := b.slots.setIfInBounds slot.index (some n)
        identities := b.identities.insert (n, attributes.identityTexts) slot
        store }) := by
  rw [intern]
  rw [bind_eq (a := b) (c := b) rfl, bind_eq (a := n) (c := b) (by rw [hc]; rfl)]
  simp only [hid]
  rw [bind_eq (a := slot) (c := b) rfl, bind_eq (fill_eq hslot), bind_eq (a := ()) rfl,
    addAttributes_bind_eq]
  simp only [hstamps]
  rfl

/-- **A node that is put into a reserved slot is there, known or not.** -/
theorem define_eq (hc : b.canonical node = .ok n) (hslot : b.IsEmptyAt slot) :
    define slot node attributes b =
      (b.store.add slot attributes).map fun store => ((), { b with
        slots := b.slots.setIfInBounds slot.index (some n)
        identities := if b.identities.contains (n, attributes.identityTexts) then b.identities
          else b.identities.insert (n, attributes.identityTexts) slot
        store }) := by
  rw [define]
  rw [bind_eq (a := b) (c := b) rfl, bind_eq (a := n) (c := b) (by rw [hc]; rfl)]
  cases hid : b.identities.contains (n, attributes.identityTexts) with
  | true =>
    simp only [if_true]
    rw [bind_eq (fill_eq hslot), addAttributes_eq]
  | false =>
    simp only [Bool.false_eq_true, if_false]
    have hslot' : ({ b with
        identities := b.identities.insert (n, attributes.identityTexts) slot } :
          Draft).IsEmptyAt slot := hslot
    rw [bind_eq (a := ()) (c := { b with
        identities := b.identities.insert (n, attributes.identityTexts) slot }) rfl,
      bind_eq (fill_eq hslot'), addAttributes_eq]

theorem bind_define_eq {α : Type} {a : α} (hc : b.canonical node = .ok n)
    (hslot : b.IsEmptyAt slot) :
    (do
      define slot node attributes
      return a : Build α) b =
      (b.store.add slot attributes).map fun store => (a, { b with
        slots := b.slots.setIfInBounds slot.index (some n)
        identities := if b.identities.contains (n, attributes.identityTexts) then b.identities
          else b.identities.insert (n, attributes.identityTexts) slot
        store }) := by
  change define slot node attributes b >>= _ = _
  rw [define_eq hc hslot]
  cases b.store.add slot attributes <;> rfl

/-! ### Roots -/

theorem addRoot_eq {root : String} {r : Ref} (hr : r.serial = b.serial)
    (hroot : b.roots.find? root = none) :
    addRoot root r b = .ok ((), { b with roots := b.roots.insert root r }) := by
  rw [addRoot, Ref.requireSerial_eq_ok hr, hroot]
  rfl

/-- The first attributes of a root go with any others, and are what the root has then. -/
theorem addRootAttributes_eq (b : Draft) (attributes : Attributes) {root : String}
    (hroot : b.store.roots.find? root = none) :
    ∃ roots : OrderedMap String Attributes,
      addRootAttributes root attributes b = .ok ((), { b with store := { b.store with roots } }) ∧
        (∀ name ≠ root, roots.find? name = b.store.roots.find? name) ∧
        (roots.find? root).getD ∅ = attributes := by
  unfold addRootAttributes AttributeStore.addRoot
  by_cases hempty : attributes.isEmpty
  · refine ⟨b.store.roots, by simp [hempty, bind, Except.bind, pure, Except.pure], fun _ _ => rfl, ?_⟩
    rw [hroot, Attributes.eq_empty_of_isEmpty hempty]
    rfl
  · refine ⟨b.store.roots.insert root attributes, ?_, fun name hname => ?_, ?_⟩
    · rw [hroot, Attributes.mergeFound]
      simp [hempty, bind, Except.bind, pure, Except.pure]
    · rw [OrderedMap.find?_insert, if_neg (Ne.symm hname)]
    · rw [OrderedMap.find?_insert, if_pos rfl]
      rfl

end Build

end SchemaGraph
