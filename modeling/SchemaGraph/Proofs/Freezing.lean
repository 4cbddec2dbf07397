import SchemaGraph.Proofs.CheckedReads
import SchemaGraph.Proofs.DraftHistory
import SchemaGraph.Proofs.Rebuild.Derived

/-!
# Freezing what operations have made

A draft that operations have made of a new one can be frozen exactly if no slot is left empty and no
root is bound past the last slot (`SchemaGraph.Draft.ofDraft_of_moves`). Freezing checks more: that every
child is a node of the generation. This check never fails.

The invariant is that what a slot holds leads to slots only (`SchemaGraph.Draft.Closed`). An operation
that stores a node checks the children of that node, and slots never go away; they may be empty, which is
how a node can be below itself. One thing is stored without a check: the indirection that a reserved slot
becomes when its node turns out to be known. Its target comes from the table of identities, and these
belong to slots that are filled (`SchemaGraph.Draft.Indexed`).

For roots there is no such invariant. Only the generation of a root is checked when it is bound, so it may
be bound to a slot that is not there and may never be.
-/

namespace SchemaGraph

namespace Draft

variable {start b c : Draft} {calls : List Call} {n : Node} {attributes : Attributes}
  {forwarding : Option Ref} {r : Ref}

/-! ### What can be done to a draft -/

/-- The draft becomes another one by something that a caller can do, and that meets no fault. -/
inductive Move : Draft → Draft → Prop
  /-- An operation is run. -/
  | edit {b c : Draft} {e : Edit} {a : e.Answer} (hrun : e.run b = .ok (a, c)) : Move b c
  /-- Strings are mapped in another way from now on. -/
  | mapping {b : Draft} (mapping : StringMapping) : Move b { b with mapping }
  /-- From now on properties are sorted, or they are not. -/
  | alphabetize {b : Draft} (alphabetize : Bool) : Move b { b with alphabetize }
  /-- The store is handed out, and anything is done to it but giving it to another generation. -/
  | store {b : Draft} {store : AttributeStore} (hserial : store.serial = b.store.serial) :
    Move b { b with store }

theorem Runs.moves (h : start.Runs calls b) : Relation.ReflTransGen Move start b := by
  induction h with
  | nil => exact .refl
  | call _ hrun ih => exact ih.tail (.edit hrun)

/-! ### What never happens to a draft -/

/-- What is stored leads to slots, and roots are of the generation. -/
structure Closed (b : Draft) : Prop where
  indexed : b.Indexed
  children : ∀ {r node}, b.Holds r node → ∀ c ∈ node.children, b.HasSlot c
  roots : ∀ r ∈ b.roots.values, r.serial = b.serial

theorem closed_of_fresh (h : start.Fresh) (hroots : start.roots = ∅) : start.Closed where
  indexed hfind := by
    rw [h.identities] at hfind
    cases hfind
  children hr := by
    have hslot := hr.2
    simp [h.slots] at hslot
  roots r hr := by
    rw [hroots] at hr
    cases hr

/-- A draft stays closed if a node is stored only when its children have slots. -/
theorem Closed.of_extends {filled : Ref → Prop} (h : b.Closed) (hc : b.Extends filled c)
    (hholds : ∀ {r node}, c.Holds r node → b.Holds r node ∨ ∀ child ∈ node.children, b.HasSlot child)
    (hroots : ∀ r ∈ c.roots.values, r ∈ b.roots.values ∨ r.serial = b.serial) : c.Closed where
  indexed := hc.indexed h.indexed
  children hr child hchild := by
    rcases hholds hr with hold | hnew
    · exact hc.hasSlot (h.children hold child hchild)
    · exact hc.hasSlot (hnew child hchild)
  roots r hr := by
    rcases hroots r hr with hold | hnew
    · exact (h.roots r hold).trans hc.serial.symm
    · exact hnew.trans hc.serial.symm

/-- What does not touch the slots leaves the draft closed. -/
theorem Closed.of_slots {filled : Ref → Prop} (h : b.Closed) (hc : b.Extends filled c)
    (hslots : c.slots = b.slots) (hroots : ∀ r ∈ c.roots.values, r ∈ b.roots.values ∨ r.serial = b.serial) :
    c.Closed :=
  h.of_extends hc (fun hr => .inl ⟨hr.1.trans hc.serial, hslots ▸ hr.2⟩) hroots

/-- **Storing a node keeps the draft closed.** The target of an indirection is a slot that is filled. -/
theorem Closed.interned (h : b.Closed) (hn : ∀ child ∈ n.children, b.HasSlot child)
    (hc : b.Interned n attributes forwarding r c) : c.Closed := by
  refine h.of_extends hc.extends.1 (fun hs => ?_) fun s hs => .inl (hc.roots_eq ▸ hs)
  rcases hc.holds_cases hs with hold | rfl | ⟨known, hid, rfl⟩
  · exact .inl hold
  · exact .inr hn
  · refine .inr fun child hchild => ?_
    obtain rfl := List.mem_singleton.1 hchild
    exact (h.indexed hid).hasSlot

/-- **Every operation that meets no fault keeps the draft closed.** -/
theorem Closed.edit (h : b.Closed) {e : Edit} {a : e.Answer} (hrun : e.run b = .ok (a, c)) :
    c.Closed := by
  have hextends := Edit.run_extends hrun
  cases e with
  | reserve =>
    obtain ⟨rfl, rfl⟩ := Prod.mk.inj (Except.ok.inj hrun)
    exact h.of_extends hextends (fun hs => .inl (holds_of_reserve hs)) fun _ => .inl
  | intern node attributes forwarding =>
    obtain ⟨n, hn⟩ := Build.exists_canonical_of_intern hrun
    refine h.interned (fun child hchild => ?_) (Build.interned_of_intern hrun)
    exact hasSlot_of_canonical hn child (Node.mem_children_canonical.1 hchild)
  | annotate r attributes =>
    obtain ⟨store, -, rfl⟩ := Build.exists_of_addAttributes hrun
    exact h.of_slots hextends rfl fun _ => .inl
  | bindRoot root r =>
    obtain ⟨hserial, rfl | rfl⟩ := Build.eq_or_of_addRoot hrun
    · exact h
    · refine h.of_slots hextends rfl fun s hs => ?_
      rcases OrderedMap.eq_or_mem_of_mem_values_insert hs with hold | rfl
      · exact .inl hold
      · exact .inr hserial
  | annotateRoot root attributes =>
    obtain ⟨store, -, rfl⟩ := Build.exists_of_addRootAttributes hrun
    exact h.of_slots hextends rfl fun _ => .inl

theorem Closed.move (h : b.Closed) (hmove : Move b c) : c.Closed := by
  cases hmove with
  | edit hrun => exact h.edit hrun
  | mapping | alphabetize => exact ⟨h.indexed, h.children, h.roots⟩
  | store hserial => exact h.of_slots (.of_slots hserial rfl rfl rfl rfl rfl) rfl fun _ => .inl

/-- **Whatever is done to a draft, it stays closed.** -/
theorem Closed.moves (h : b.Closed) (hmoves : Relation.ReflTransGen Move b c) : c.Closed := by
  induction hmoves with
  | refl => exact h
  | tail _ hmove ih => exact ih.move hmove

/-! ### Freezing -/

/-- **What freezing makes of a closed draft**: it names a slot that is empty, or else a root that has no
slot, or there is neither. -/
theorem Closed.ofDraft_ends (h : b.Closed) :
    Ends (Generation.ofDraft b)
      (fun f => (∃ r, b.IsEmptyAt r ∧ f = .unresolved r) ∨
        (∀ r, ¬b.IsEmptyAt r) ∧ ∃ r ∈ b.roots.values, b.size ≤ r.index ∧ f = .danglingRoot r)
      fun _ => (∀ r, ¬b.IsEmptyAt r) ∧ ∀ r ∈ b.roots.values, r.index < b.size := by
  refine ((Generation.ofDraft_ends_faulty h.children).mono_bad fun f hf => ?_).mono fun _ hg => ?_
  · refine hf.imp_right fun ⟨hempty, hfault⟩ => ⟨hempty, ?_⟩
    obtain ⟨r, hr, hroot⟩ := List.exists_of_findSome?_eq_some hfault
    rw [Generation.rootFault?, if_neg (not_not.2 (h.roots r hr))] at hroot
    split at hroot
    · cases hroot
    · next hnot => exact ⟨r, hr, Nat.le_of_not_lt hnot, (Option.some.inj hroot).symm⟩
  · exact ⟨hg.1.1, fun r hr => (hg.1.2 r hr).2⟩

/-- **A draft can be frozen exactly if every slot is filled and every root has one**, whatever has been
done to it since it was new: with slots reserved and filled later, nodes that lead to themselves, and
nodes that turned out to be known. Freezing a draft names an empty slot or a root without one, and never
complains of a child, nor of the generation of anything. What it returns is only ever read where there is
something to read. -/
theorem ofDraft_of_moves (hstart : start.Fresh) (hroots : start.roots = ∅)
    (hmoves : Relation.ReflTransGen Move start b) :
    ((∃ g, Generation.ofDraft b = .ok g) ↔
      (∀ r, ¬b.IsEmptyAt r) ∧ ∀ r ∈ b.roots.values, r.index < b.size) ∧
    (∀ fault, Generation.ofDraft b = .error fault → (∃ r, b.IsEmptyAt r ∧ fault = .unresolved r) ∨
      (∀ r, ¬b.IsEmptyAt r) ∧ ∃ r ∈ b.roots.values, b.size ≤ r.index ∧ fault = .danglingRoot r) ∧
    ∀ g, Generation.ofDraft b = .ok g → g.ReadsInBounds := by
  have hends := ((closed_of_fresh hstart hroots).moves hmoves).ofDraft_ends
  refine ⟨⟨fun ⟨g, hg⟩ => hends.of_eq_ok hg, fun ⟨hempty, hbound⟩ => ?_⟩,
    fun fault hfault => hends.of_eq_error hfault, fun g _ => g.readsInBounds⟩
  cases hdraft : Generation.ofDraft b with
  | ok g => exact ⟨g, rfl⟩
  | error f =>
    rcases hends.of_eq_error hdraft with ⟨r, hr, -⟩ | ⟨-, r, hr, hle, -⟩
    · exact absurd hr (hempty r)
    · exact absurd (hbound r hr) (Nat.not_lt.2 hle)

/-- A class that has itself as a property is put behind a slot that was reserved for it, and strings
behind another slot when they are known already. The class is a root. -/
def linked : List Call :=
  [⟨.reserve, ⟨0, 0⟩⟩,
    ⟨.intern (.primitive .string) ∅ none, ⟨0, 1⟩⟩,
    ⟨.reserve, ⟨0, 2⟩⟩,
    ⟨.intern (.object [⟨"next", ⟨0, 0⟩, true⟩, ⟨"text", ⟨0, 2⟩, false⟩]) ∅ (some ⟨0, 0⟩), ⟨0, 0⟩⟩,
    ⟨.intern (.primitive .string) ∅ (some ⟨0, 2⟩), ⟨0, 2⟩⟩,
    ⟨.bindRoot "first" ⟨0, 0⟩, ()⟩]

/-- A second root, where there is no slot. -/
def stray : Call := ⟨.bindRoot "last" ⟨0, 3⟩, ()⟩

/-- Calls that can be replayed are moves, and what is seen of the draft is true of it. -/
theorem exists_moves {p : Draft → Bool} (h : (start.replay calls).any p = true) :
    ∃ b, Relation.ReflTransGen Move start b ∧ p b = true := by
  cases hb : start.replay calls with
  | none => simp [hb] at h
  | some b =>
    have hruns : start.Runs ([] ++ calls) b := Runs.nil.replay hb
    exact ⟨b, hruns.moves, by simpa [hb] using h⟩

/-- The draft can be frozen with its first root, and cannot with the second one. -/
theorem ofDraft_of_moves_linked :
    (∃ b, Relation.ReflTransGen Move (initial ⟨true⟩) b ∧
      ∃ g, Generation.ofDraft b = .ok g ∧ g.ReadsInBounds) ∧
    ∃ c, Relation.ReflTransGen Move (initial ⟨true⟩) c ∧
      Generation.ofDraft c = .error (.danglingRoot ⟨0, 3⟩) := by
  let sorting : Draft := { initial ⟨true⟩ with alphabetize := true }
  have hsorting : Move (initial ⟨true⟩) sorting := .alphabetize true
  have hfilled : ∀ {b : Draft} {r}, b.slots.all Option.isSome = true → ¬b.IsEmptyAt r := by
    rintro b r hall ⟨-, hslot⟩
    cases Array.all_eq_true_iff_forall_mem.1 hall none (Array.mem_of_getElem? hslot)
  have hlinked : (sorting.replay linked).any (fun b => b.slots.all Option.isSome &&
      b.roots.values.all (·.index < b.size)) = true := by decide +kernel
  have hstray : (sorting.replay (linked ++ [stray])).any (fun c => c.slots.all Option.isSome &&
      c.roots.values = [⟨0, 0⟩, ⟨0, 3⟩] && c.size = 3) = true := by decide +kernel
  obtain ⟨b, hb, hchecked⟩ := exists_moves hlinked
  obtain ⟨c, hc, hchecked'⟩ := exists_moves hstray
  simp only [Bool.and_eq_true, List.all_eq_true, decide_eq_true_iff] at hchecked hchecked'
  have hmoves := hb.head hsorting
  have hmoves' := hc.head hsorting
  obtain ⟨hiff, -, hreads⟩ := ofDraft_of_moves fresh_initial rfl hmoves
  obtain ⟨hiff', hfaults, -⟩ := ofDraft_of_moves fresh_initial rfl hmoves'
  obtain ⟨⟨hall, hroots⟩, hsize⟩ := hchecked'
  refine ⟨⟨b, hmoves, ?_⟩, c, hmoves', ?_⟩
  · obtain ⟨g, hg⟩ := hiff.2 ⟨fun r => hfilled hchecked.1, hchecked.2⟩
    exact ⟨g, hg, hreads g hg⟩
  · cases hdraft : Generation.ofDraft c with
    | ok g =>
      have hbound := (hiff'.1 ⟨g, hdraft⟩).2 ⟨0, 3⟩ (by simp [hroots])
      simp [hsize] at hbound
    | error fault =>
      rcases hfaults fault hdraft with ⟨r, hr, -⟩ | ⟨-, r, hr, hle, rfl⟩
      · exact absurd hr (hfilled hall)
      · rw [hroots] at hr
        rcases List.mem_pair.1 hr with rfl | rfl
        · simp [hsize] at hle
        · rfl

end Draft

end SchemaGraph
