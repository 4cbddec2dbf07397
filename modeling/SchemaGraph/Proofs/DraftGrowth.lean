import SchemaGraph.Proofs.Interning

/-!
# What operations leave of a draft

Whatever is done to a draft, no slot is emptied and none is given another node: operations only
add slots, fill empty ones, and merge attributes (`SchemaGraph.Draft.Extends`). So a node that
is stored stays where it is, however the caller goes on, and an empty slot is filled only by an
operation that names it (`SchemaGraph.Build.intern_extends`, `SchemaGraph.Build.forward_extends`).

In contrast to `SchemaGraph.Build.intern_of_new` and its like, nothing is assumed here of the draft:
the operation may be any that a script runs, and all that is known of it is that it succeeded. What
it can have done is listed first (`SchemaGraph.Draft.Interned` for the storing of a node), and
everything else is read off that.
-/

namespace SchemaGraph

namespace AttributeStore

variable {s s' : AttributeStore} {r : Ref} {attributes : Attributes}

/-- The generation of a store is the same after a write to a root. -/
theorem serial_addRoot {root : String} (h : s.addRoot root attributes = .ok s') :
    s'.serial = s.serial := by
  obtain ⟨roots, rfl⟩ := exists_roots_of_addRoot h
  rfl

/-- A new node gets attributes, and a marker of its own if nodes are stamped. -/
def Founds (s : AttributeStore) (stamps : Bool) (r : Ref) (attributes : Attributes)
    (s' : AttributeStore) : Prop :=
  ∃ mid, s.add r attributes = .ok mid ∧
    if stamps then mid.add r (.singleton .provenance (.singleton r.index)) = .ok s' else s' = mid

theorem Founds.serial {stamps : Bool} (h : s.Founds stamps r attributes s') :
    s'.serial = s.serial := by
  obtain ⟨mid, hadd, hstamp⟩ := h
  have hmid := (writes_of_add hadd).serial
  cases stamps with
  | false =>
    obtain rfl : s' = mid := hstamp
    exact hmid
  | true => exact (writes_of_add hstamp).serial.trans hmid

/-- A new node changes nothing about roots. -/
theorem Founds.roots {stamps : Bool} (h : s.Founds stamps r attributes s') : s'.roots = s.roots := by
  obtain ⟨mid, hadd, hstamp⟩ := h
  have hmid := (writes_of_add hadd).roots
  cases stamps with
  | false =>
    obtain rfl : s' = mid := hstamp
    exact hmid
  | true => exact (writes_of_add hstamp).roots.trans hmid

end AttributeStore

namespace Draft

variable {b c : Draft} {filled : Ref → Prop} {r : Ref} {n node : Node} {attributes : Attributes}
  {forwarding : Option Ref}

/-- An identity is one of the node that its slot holds. -/
def Indexed (b : Draft) : Prop :=
  ∀ {node texts r}, b.identities.find? (node, texts) = some r → b.Holds r node

/-- The slot holds the node, or is an indirection to one that does. -/
def HoldsBehind (b : Draft) (r : Ref) (node : Node) : Prop :=
  ∃ home, b.Holds home node ∧ (r = home ∨ b.Holds r (.indirection home))

/-- The draft `c` has all that `b` has. Of the reserved slots of `b` that were empty, none but
those of `filled` have been filled. -/
structure Extends (filled : Ref → Prop) (b c : Draft) : Prop where
  serial : c.serial = b.serial
  options : c.options = b.options
  mapping : c.mapping = b.mapping
  alphabetize : c.alphabetize = b.alphabetize
  size : b.size ≤ c.size
  holds : ∀ {r node}, b.Holds r node → c.Holds r node
  empty : ∀ {r}, b.IsEmptyAt r → c.IsEmptyAt r ∨ filled r
  indexed : b.Indexed → c.Indexed

theorem Extends.refl (b : Draft) : b.Extends filled b :=
  ⟨rfl, rfl, rfl, rfl, Nat.le_refl _, id, .inl, id⟩

theorem Extends.trans {b' : Draft} (h : b.Extends filled c) (h' : c.Extends filled b') :
    b.Extends filled b' where
  serial := h'.serial.trans h.serial
  options := h'.options.trans h.options
  mapping := h'.mapping.trans h.mapping
  alphabetize := h'.alphabetize.trans h.alphabetize
  size := Nat.le_trans h.size h'.size
  holds := h'.holds ∘ h.holds
  empty := fun hr => (h.empty hr).elim h'.empty .inr
  indexed := h'.indexed ∘ h.indexed

theorem Extends.mono {filled' : Ref → Prop} (h : b.Extends filled c)
    (himp : ∀ r, filled r → filled' r) : b.Extends filled' c :=
  { h with empty := fun hr => (h.empty hr).imp_right (himp _) }

/-- What fills no slot fills only those of `filled`. -/
theorem Extends.any (h : b.Extends (fun _ => False) c) : b.Extends filled c :=
  h.mono fun _ => False.elim

/-- Filling a slot that was not there before is no change to what was. -/
theorem Extends.trans_fresh {b' : Draft} (h : b.Extends filled c) (h' : c.Extends (· = r) b')
    (hr : ¬b.IsEmptyAt r) : b.Extends filled b' where
  serial := h'.serial.trans h.serial
  options := h'.options.trans h.options
  mapping := h'.mapping.trans h.mapping
  alphabetize := h'.alphabetize.trans h.alphabetize
  size := Nat.le_trans h.size h'.size
  holds := h'.holds ∘ h.holds
  empty := fun {s} hs => by
    rcases h.empty hs with hs' | hs'
    · have hne : s ≠ r := fun heq => hr (heq ▸ hs)
      exact .inl ((h'.empty hs').resolve_right hne)
    · exact .inr hs'
  indexed := h'.indexed ∘ h.indexed

theorem Extends.hasSlot (h : b.Extends filled c) (hr : b.HasSlot r) : c.HasSlot r :=
  ⟨hr.1.trans h.serial.symm, Nat.lt_of_lt_of_le hr.2 h.size⟩

theorem Extends.holdsBehind (h : b.Extends filled c) (hr : b.HoldsBehind r node) :
    c.HoldsBehind r node := by
  obtain ⟨home, hhome, hleads⟩ := hr
  exact ⟨home, h.holds hhome, hleads.imp_right h.holds⟩

/-- Nothing but attributes, roots and switches of the draft was touched. -/
theorem Extends.of_slots (hserial : c.serial = b.serial) (hoptions : c.options = b.options)
    (hmapping : c.mapping = b.mapping) (halphabetize : c.alphabetize = b.alphabetize)
    (hslots : c.slots = b.slots) (hidentities : c.identities = b.identities) :
    b.Extends (fun _ => False) c := by
  have hholds : ∀ {r node}, b.Holds r node → c.Holds r node := fun h =>
    ⟨h.1.trans hserial.symm, hslots ▸ h.2⟩
  have hsize : b.size ≤ c.size := Nat.le_of_eq (congrArg Array.size hslots.symm)
  refine ⟨hserial, hoptions, hmapping, halphabetize, hsize, hholds, fun h => .inl ?_, fun h => ?_⟩
  · exact ⟨h.1.trans hserial.symm, hslots ▸ h.2⟩
  · intro node texts r hfind
    exact hholds (h (hidentities ▸ hfind))

theorem extends_reserve : b.Extends (fun _ => False) { b with slots := b.slots.push none } := by
  have hholds : ∀ {r node}, b.Holds r node →
      ({ b with slots := b.slots.push none } : Draft).Holds r node := fun h =>
    (holds_push_iff rfl).2 (.inl h)
  refine ⟨rfl, rfl, rfl, rfl, ?_, hholds, fun h => .inl ?_, fun h => ?_⟩
  · rw [Draft.size, Draft.size, Array.size_push]
    exact Nat.le_succ _
  · exact (isEmptyAt_push_iff rfl).2 (.inl h)
  · exact fun hfind => hholds (h hfind)

theorem holds_of_reserve (h : ({ b with slots := b.slots.push none } : Draft).Holds r node) :
    b.Holds r node :=
  ((holds_push_iff rfl).1 h).resolve_right fun hnew => by simp at hnew

/-- Filling an empty slot. -/
theorem extends_fill (hempty : b.IsEmptyAt r) : b.Extends (· = r) { b with
    slots := b.slots.setIfInBounds r.index (some node) } := by
  have hholds : ∀ {s n}, b.Holds s n → ({ b with
      slots := b.slots.setIfInBounds r.index (some node) } : Draft).Holds s n := fun hs =>
    hs.set rfl hempty
  refine ⟨rfl, rfl, rfl, rfl, ?_, hholds, fun {s} hs => ?_, fun hb => ?_⟩
  · simp [Draft.size]
  · rw [Draft.isEmptyAt_set_iff rfl hempty.hasSlot]
    by_cases heq : s = r
    · exact .inr heq
    · rw [if_neg heq]
      exact .inl hs
  · exact fun hfind => hholds (hb hfind)

/-- A new identity of a slot that holds its node. -/
theorem extends_identify {texts : List (String × String)} (hholds : b.Holds r node) :
    b.Extends (fun _ => False) { b with identities := b.identities.insert (node, texts) r } := by
  refine ⟨rfl, rfl, rfl, rfl, Nat.le_refl _, id, .inl, fun hb => ?_⟩
  intro n texts' s hfind
  rcases OrderedMap.eq_or_of_find?_insert hfind with hfind | ⟨heq, rfl⟩
  · exact hb hfind
  · obtain ⟨rfl, rfl⟩ := Prod.mk.inj heq
    exact hholds

theorem hasSlot_of_canonical (h : b.canonical node = .ok n) : ∀ c ∈ node.children, b.HasSlot c := by
  rw [canonical] at h
  split at h
  · cases h
  · next hnone =>
    exact fun c hc => childFault?_eq_none_iff.1 (List.findSome?_eq_none_iff.1 hnone c hc)

/-- What a canonical form is, if there is one. -/
theorem eq_canonical_of_ok {n : Node} (h : b.canonical node = .ok n) :
    n = node.canonical b.mapping b.alphabetize := by
  rw [canonical] at h
  split at h
  · cases h
  · exact (Except.ok.inj h).symm

/-! ### Storing a node -/

/-- What storing the node in canonical form makes of the draft `b`, with which answer. -/
inductive Interned (b : Draft) (n : Node) (attributes : Attributes) :
    Option Ref → Ref → Draft → Prop
  /-- The identity is known, and its node takes the attributes. -/
  | shared {known : Ref} {store : AttributeStore}
    (hid : b.identities.find? (n, attributes.identityTexts) = some known)
    (hstore : b.store.add known attributes = .ok store) :
    Interned b n attributes none known { b with store }
  /-- The identity is known, and the reserved slot becomes an indirection to its node. -/
  | forwarded {known slot : Ref} {store : AttributeStore}
    (hid : b.identities.find? (n, attributes.identityTexts) = some known)
    (hstore : b.store.add known attributes = .ok store) (hslot : b.IsEmptyAt slot) :
    Interned b n attributes (some slot) slot { b with
      slots := b.slots.setIfInBounds slot.index (some (.indirection known))
      store
      forwarded := true }
  /-- The identity is new, and gets the next slot. -/
  | stored {store : AttributeStore}
    (hid : b.identities.find? (n, attributes.identityTexts) = none)
    (hstore : b.store.Founds b.stamps b.nextRef attributes store) :
    Interned b n attributes none b.nextRef { b with
      slots := b.slots.push (some n)
      identities := b.identities.insert (n, attributes.identityTexts) b.nextRef
      store }
  /-- The identity is new, and gets the reserved slot. -/
  | filled {slot : Ref} {store : AttributeStore}
    (hid : b.identities.find? (n, attributes.identityTexts) = none)
    (hstore : b.store.Founds b.stamps slot attributes store) (hslot : b.IsEmptyAt slot) :
    Interned b n attributes (some slot) slot { b with
      slots := b.slots.setIfInBounds slot.index (some n)
      identities := b.identities.insert (n, attributes.identityTexts) slot
      store }

/-- A node that is stored in an empty slot under its identity is there. -/
theorem extends_store {texts : List (String × String)} {store : AttributeStore}
    (hserial : store.serial = b.store.serial) (hempty : b.IsEmptyAt r) :
    b.Extends (· = r) { b with
      slots := b.slots.setIfInBounds r.index (some n)
      identities := b.identities.insert (n, texts) r
      store } ∧ ({ b with
      slots := b.slots.setIfInBounds r.index (some n)
      identities := b.identities.insert (n, texts) r
      store } : Draft).Holds r n := by
  have hfill : b.Extends (· = r) { b with
      slots := b.slots.setIfInBounds r.index (some n) } := extends_fill hempty
  have hidentify : Draft.Extends (fun _ => False)
      { b with slots := b.slots.setIfInBounds r.index (some n) } { b with
        slots := b.slots.setIfInBounds r.index (some n)
        identities := b.identities.insert (n, texts) r } :=
    extends_identify (holds_set_self rfl hempty)
  refine ⟨(hfill.trans hidentify.any).trans (.any (.of_slots hserial rfl rfl rfl rfl rfl)), ?_⟩
  exact holds_set_self hserial hempty

/-- **What storing a node leaves.** -/
theorem Interned.extends (h : b.Interned n attributes forwarding r c) :
    b.Extends (forwarding = some ·) c ∧ (∀ s, forwarding = some s → s = r) ∧
      (b.Indexed → c.HoldsBehind r n) := by
  cases h with
  | shared hid hstore =>
    have hserial := (AttributeStore.writes_of_add hstore).serial
    have hsame : b.Extends (fun _ => False) { b with store := _ } :=
      .of_slots hserial rfl rfl rfl rfl rfl
    exact ⟨hsame.any, nofun, fun hb => ⟨r, hsame.holds (hb hid), .inl rfl⟩⟩
  | @forwarded known slot store hid hstore hempty =>
    have hserial := (AttributeStore.writes_of_add hstore).serial
    have hfill : b.Extends (· = r) { b with
        slots := b.slots.setIfInBounds r.index (some (.indirection known)) } := extends_fill hempty
    have hsame : Extends (· = r)
        { b with slots := b.slots.setIfInBounds r.index (some (.indirection known)) } { b with
          slots := b.slots.setIfInBounds r.index (some (.indirection known))
          store
          forwarded := true } := .any (.of_slots hserial rfl rfl rfl rfl rfl)
    refine ⟨(hfill.trans hsame).mono fun s hs => hs ▸ rfl, fun s hs => (Option.some.inj hs).symm,
      fun hb => ?_⟩
    exact ⟨known, (hfill.trans hsame).holds (hb hid), .inr (holds_set_self hserial hempty)⟩
  | @stored store hid hstore =>
    have hempty : ({ b with slots := b.slots.push none } : Draft).IsEmptyAt b.nextRef :=
      (isEmptyAt_push_iff rfl).2 (.inr ⟨rfl, rfl⟩)
    obtain ⟨hextends, hholds⟩ := @extends_store { b with slots := b.slots.push none } b.nextRef n
      attributes.identityTexts store hstore.serial hempty
    dsimp only at hextends hholds
    rw [setIfInBounds_push_nextRef] at hextends hholds
    exact ⟨extends_reserve.any.trans_fresh hextends not_isEmptyAt_nextRef, nofun,
      fun _ => ⟨b.nextRef, hholds, .inl rfl⟩⟩
  | filled hid hstore hempty =>
    obtain ⟨hextends, hholds⟩ := extends_store hstore.serial hempty
    exact ⟨hextends.mono fun s hs => hs ▸ rfl, fun s hs => (Option.some.inj hs).symm,
      fun _ => ⟨r, hholds, .inl rfl⟩⟩

/-- **What is held after storing a node** was held before, or is the node, or is an indirection to where
its identity was known. -/
theorem Interned.holds_cases (h : b.Interned n attributes forwarding r c) {s : Ref}
    (hs : c.Holds s node) :
    b.Holds s node ∨ node = n ∨ ∃ known,
      b.identities.find? (n, attributes.identityTexts) = some known ∧ node = .indirection known := by
  cases h with
  | shared hid hstore => exact .inl ⟨hs.1.trans (AttributeStore.writes_of_add hstore).serial, hs.2⟩
  | @forwarded known slot store hid hstore hempty =>
    rw [holds_set_iff (AttributeStore.writes_of_add hstore).serial hempty.hasSlot] at hs
    split at hs
    · exact .inr (.inr ⟨known, hid, (Option.some.inj hs).symm⟩)
    · exact .inl hs
  | stored hid hstore =>
    exact ((holds_push_iff hstore.serial).1 hs).imp_right fun hnew =>
      .inl (Option.some.inj hnew.2).symm
  | filled hid hstore hempty =>
    rw [holds_set_iff hstore.serial hempty.hasSlot] at hs
    split at hs
    · exact .inr (.inl (Option.some.inj hs).symm)
    · exact .inl hs

/-- Storing a node binds no root. -/
theorem Interned.roots_eq (h : b.Interned n attributes forwarding r c) : c.roots = b.roots := by
  cases h <;> rfl

end Draft

namespace Build

variable {b c : Draft} {r : Ref} {n node : Node} {attributes : Attributes} {forwarding : Option Ref}

/-! ### What an action that succeeded has done -/

/-- An action that went on with `k` had a result to go on with. -/
theorem exists_of_bind {α β : Type} {x : Build α} {k : α → Build β} {out : β × Draft}
    (h : (x >>= k) b = .ok out) : ∃ a c, x b = .ok (a, c) ∧ k a c = .ok out := by
  change (x b >>= fun r => k r.1 r.2) = _ at h
  obtain ⟨r, hx, h⟩ := exists_of_bind_eq_ok h
  exact ⟨r.1, r.2, hx, h⟩

theorem eq_of_fill (h : fill r node b = .ok ((), c)) :
    b.IsEmptyAt r ∧ c = { b with slots := b.slots.setIfInBounds r.index (some node) } := by
  unfold fill Ref.requireSerial at h
  split at h
  case isFalse => cases h
  case isTrue hserial =>
    split at h
    · cases h
    · cases h
    · next hslot => exact ⟨⟨hserial, hslot⟩, (Prod.mk.inj (Except.ok.inj h)).2.symm⟩

theorem exists_of_addAttributes (h : addAttributes r attributes b = .ok ((), c)) :
    ∃ store, b.store.add r attributes = .ok store ∧ c = { b with store } := by
  rw [addAttributes_eq] at h
  obtain ⟨store, hadd, h⟩ := exists_of_bind_eq_ok h
  exact ⟨store, hadd, (Prod.mk.inj (Except.ok.inj h)).2.symm⟩

/-- A root is bound to a reference of the generation, if it was not bound before. -/
theorem eq_or_of_addRoot {root : String} (h : addRoot root r b = .ok ((), c)) :
    r.serial = b.serial ∧ (c = b ∨ c = { b with roots := b.roots.insert root r }) := by
  unfold addRoot Ref.requireSerial at h
  split at h
  case isFalse => cases h
  case isTrue hserial =>
    refine ⟨hserial, ?_⟩
    dsimp only [bind, Except.bind] at h
    split at h
    · split at h
      · exact .inl (Prod.mk.inj (Except.ok.inj h)).2.symm
      · cases h
    · exact .inr (Prod.mk.inj (Except.ok.inj h)).2.symm

theorem exists_of_addRoot {root : String} (h : addRoot root r b = .ok ((), c)) :
    ∃ roots, c = { b with roots } := by
  obtain ⟨-, rfl | rfl⟩ := eq_or_of_addRoot h
  · exact ⟨c.roots, rfl⟩
  · exact ⟨_, rfl⟩

theorem exists_of_addRootAttributes {root : String}
    (h : addRootAttributes root attributes b = .ok ((), c)) :
    ∃ store, b.store.addRoot root attributes = .ok store ∧ c = { b with store } := by
  unfold addRootAttributes at h
  obtain ⟨store, hadd, h⟩ := exists_of_bind_eq_ok h
  exact ⟨store, hadd, (Prod.mk.inj (Except.ok.inj h)).2.symm⟩

/-- A new node is put into its slot, under its identity and with its attributes. -/
theorem exists_of_store {identity : Identity} {stamps : Bool} {s : Ref} (h : (do
      fill r n
      identify identity r
      addAttributes r attributes
      if stamps then
        addAttributes r (.singleton .provenance (.singleton r.index))
      return r : Build Ref) b = .ok (s, c)) :
    s = r ∧ b.IsEmptyAt r ∧ ∃ store, b.store.Founds stamps r attributes store ∧
      c = { b with
        slots := b.slots.setIfInBounds r.index (some n)
        identities := b.identities.insert identity r
        store } := by
  obtain ⟨_, b₁, hfill, h⟩ := exists_of_bind h
  obtain ⟨_, b₂, hidentify, h⟩ := exists_of_bind h
  obtain ⟨_, b₃, hadd, h⟩ := exists_of_bind h
  obtain ⟨hempty, rfl⟩ := eq_of_fill hfill
  obtain rfl := (Prod.mk.inj (Except.ok.inj hidentify)).2
  obtain ⟨mid, hmid, rfl⟩ := exists_of_addAttributes hadd
  cases stamps with
  | false =>
    obtain ⟨rfl, rfl⟩ := Prod.mk.inj (Except.ok.inj h)
    exact ⟨rfl, hempty, mid, ⟨mid, hmid, rfl⟩, rfl⟩
  | true =>
    obtain ⟨_, b₄, hstamp, h⟩ := exists_of_bind h
    obtain ⟨store, hstore, rfl⟩ := exists_of_addAttributes hstamp
    obtain ⟨rfl, rfl⟩ := Prod.mk.inj (Except.ok.inj h)
    exact ⟨rfl, hempty, store, ⟨mid, hmid, hstore⟩, rfl⟩

/-- A node that was stored has a canonical form. -/
theorem exists_canonical_of_intern (h : intern node attributes forwarding b = .ok (r, c)) :
    ∃ n, b.canonical node = .ok n := by
  cases hn : b.canonical node with
  | ok n => exact ⟨n, rfl⟩
  | error f =>
    rw [intern] at h
    rw [bind_eq (a := b) (c := b) rfl, hn] at h
    cases h

/-- **Storing a node does one of four things.** -/
theorem interned_of_intern (h : intern node attributes forwarding b = .ok (r, c)) :
    b.Interned (node.canonical b.mapping b.alphabetize) attributes forwarding r c := by
  obtain ⟨n, hcanonical⟩ := exists_canonical_of_intern h
  rw [intern] at h
  rw [bind_eq (a := b) (c := b) rfl, bind_eq (a := n) (c := b) (by rw [hcanonical]; rfl)] at h
  rw [← Draft.eq_canonical_of_ok hcanonical]
  cases hid : b.identities.find? (n, attributes.identityTexts) with
  | some known =>
    simp only [hid] at h
    obtain ⟨_, b₁, hadd, h⟩ := exists_of_bind h
    obtain ⟨store, hstore, rfl⟩ := exists_of_addAttributes hadd
    cases forwarding with
    | none =>
      obtain ⟨rfl, rfl⟩ := Prod.mk.inj (Except.ok.inj h)
      exact .shared hid hstore
    | some slot =>
      obtain ⟨_, b₂, hforward, h⟩ := exists_of_bind h
      obtain ⟨_, b₃, hfill, hset⟩ := exists_of_bind hforward
      obtain ⟨⟨hserial, hslot⟩, rfl⟩ := eq_of_fill hfill
      obtain rfl := (Prod.mk.inj (Except.ok.inj hset)).2
      obtain ⟨rfl, rfl⟩ := Prod.mk.inj (Except.ok.inj h)
      have hempty : b.IsEmptyAt slot :=
        ⟨hserial.trans (AttributeStore.writes_of_add hstore).serial, hslot⟩
      exact .forwarded hid hstore hempty
  | none =>
    simp only [hid] at h
    cases forwarding with
    | none =>
      obtain ⟨_, b₁, hreserve, h⟩ := exists_of_bind h
      obtain ⟨rfl, rfl⟩ := Prod.mk.inj (Except.ok.inj hreserve)
      obtain ⟨rfl, -, store, hstore, rfl⟩ := exists_of_store h
      have hstored := Draft.Interned.stored hid hstore
      rw [← Draft.setIfInBounds_push_nextRef] at hstored
      exact hstored
    | some slot =>
      obtain ⟨rfl, hempty, store, hstore, rfl⟩ := exists_of_store h
      exact .filled hid hstore hempty

/-! ### What it leaves -/

theorem fill_extends (h : fill r node b = .ok ((), c)) :
    b.IsEmptyAt r ∧ b.Extends (· = r) c ∧ c.Holds r node := by
  obtain ⟨hempty, rfl⟩ := eq_of_fill h
  exact ⟨hempty, Draft.extends_fill hempty, Draft.holds_set_self rfl hempty⟩

theorem forward_extends {target : Ref} (h : forward r target b = .ok ((), c)) :
    b.Extends (· = r) c ∧ c.Holds r (.indirection target) := by
  obtain ⟨_, b', hfill, hset⟩ := exists_of_bind h
  obtain ⟨-, hextends, hholds⟩ := fill_extends hfill
  obtain rfl := (Prod.mk.inj (Except.ok.inj hset)).2
  have hflag : b'.Extends (fun _ => False) { b' with forwarded := true } :=
    .of_slots rfl rfl rfl rfl rfl rfl
  exact ⟨hextends.trans hflag.any, hholds⟩

theorem addAttributes_extends (h : addAttributes r attributes b = .ok ((), c)) :
    b.Extends (fun _ => False) c := by
  obtain ⟨store, hadd, rfl⟩ := exists_of_addAttributes h
  exact .of_slots (AttributeStore.writes_of_add hadd).serial rfl rfl rfl rfl rfl

/-- **What storing a node leaves**: no slot is filled but the one it was to be put behind, and the
canonical form of the node is behind the answer. -/
theorem intern_extends (h : intern node attributes forwarding b = .ok (r, c)) :
    b.Extends (forwarding = some ·) c ∧ (∀ s, forwarding = some s → s = r) ∧
      (b.Indexed → c.HoldsBehind r (node.canonical b.mapping b.alphabetize)) :=
  (interned_of_intern h).extends

theorem addRoot_extends {root : String} (h : addRoot root r b = .ok ((), c)) :
    b.Extends (fun _ => False) c := by
  obtain ⟨roots, rfl⟩ := exists_of_addRoot h
  exact .of_slots rfl rfl rfl rfl rfl rfl

theorem addRootAttributes_extends {root : String}
    (h : addRootAttributes root attributes b = .ok ((), c)) : b.Extends (fun _ => False) c := by
  obtain ⟨store, hadd, rfl⟩ := exists_of_addRootAttributes h
  exact .of_slots (AttributeStore.serial_addRoot hadd) rfl rfl rfl rfl rfl

end Build

/-! ### Operations as data -/

namespace Edit

variable {b c : Draft}

/-- The operation was to store the node, behind that slot. -/
def PutsBehind (e : Edit) (slot : Ref) : Prop :=
  ∃ node attributes, e = .intern node attributes (some slot)

/-- **What an operation leaves**: no slot is filled but the one that it names. -/
theorem run_extends {e : Edit} {answer : e.Answer} (h : e.run b = .ok (answer, c)) :
    b.Extends e.PutsBehind c := by
  cases e with
  | reserve =>
    obtain ⟨rfl, rfl⟩ := Prod.mk.inj (Except.ok.inj h)
    exact Draft.extends_reserve.any
  | intern node attributes forwarding =>
    refine (Build.intern_extends h).1.mono fun slot hslot => ?_
    exact ⟨node, attributes, congrArg _ hslot⟩
  | annotate r attributes => exact (Build.addAttributes_extends h).any
  | bindRoot root r => exact (Build.addRoot_extends h).any
  | annotateRoot root attributes => exact (Build.addRootAttributes_extends h).any

end Edit

end SchemaGraph
