import SchemaGraph.Proofs.DraftGrowth
import SchemaGraph.Proofs.IdentityTexts

/-!
# The history of a draft

What a draft has stored can be told from the calls that were made of it
(`SchemaGraph.Draft.Runs`), whatever they were and in whatever order. An identity belongs to what
was answered when it was asked for first (`SchemaGraph.Draft.firstAnswer?`), and every later call
that asks for it gets the same answer, or a slot that leads there. Two calls are answered alike only
if they asked for the same identity (`SchemaGraph.Draft.Runs.interns_by_identity`).

The invariant is that the table of identities says just that (`SchemaGraph.Draft.Recorded`): it is
the list of first answers, no two identities have one answer, and a slot that is filled but has no
identity was forwarded to one that has. A step of the run can only be one of four that touch slots
or identities (`SchemaGraph.Draft.Interned`), or leave both alone.
-/

namespace SchemaGraph

/-! ### Calls -/

/-- An operation on a draft, and what it answered. -/
structure Call where
  edit : Edit
  answer : edit.Answer

theorem lookupEntry_append {α β : Type} [DecidableEq α] {key : α} {es es' : List (α × β)} :
    lookupEntry key (es ++ es') = (lookupEntry key es).or (lookupEntry key es') := by
  induction es with
  | nil => rfl
  | cons e rest ih => grind [lookupEntry]

namespace Draft

/-- The calls lead from the draft `start` to another one. -/
inductive Runs (start : Draft) : List Call → Draft → Prop
  /-- No call was made yet. -/
  | nil : start.Runs [] start
  /-- One more call was made, and did not fail. -/
  | call {calls : List Call} {b c : Draft} {e : Edit} {a : e.Answer} (h : start.Runs calls b)
    (hrun : e.run b = .ok (a, c)) : start.Runs (calls ++ [⟨e, a⟩]) c

/-- Nothing has been stored in the draft yet. -/
structure Fresh (b : Draft) : Prop where
  slots : b.slots = #[]
  identities : b.identities = ∅

theorem fresh_ofGeneration {serial : Nat} {options : Options} {mapping : StringMapping}
    {alphabetize : Bool} : (ofGeneration serial options mapping alphabetize).Fresh := ⟨rfl, rfl⟩

theorem fresh_initial {options : Options} : (initial options).Fresh := ⟨rfl, rfl⟩

variable {start b c : Draft} {calls calls' : List Call} {n node : Node} {attributes : Attributes}
  {forwarding : Option Ref} {r : Ref}

/-- **A filled slot keeps its node** along a run. -/
theorem Runs.holds (h : start.Runs calls b) (hr : start.Holds r n) : b.Holds r n := by
  induction h with
  | nil => exact hr
  | call _ hrun ih => exact (Edit.run_extends hrun).holds ih

/-- The identity of a node with its attributes. -/
def identityOf (b : Draft) (node : Node) (attributes : Attributes) : Identity :=
  (node.canonical b.mapping b.alphabetize, attributes.identityTexts)

/-- The identity that a call asked for, and the answer, if it asked for a node. -/
def asked? (start : Draft) : Call → Option (Identity × Ref)
  | ⟨.intern node attributes _, r⟩ => some (start.identityOf node attributes, r)
  | _ => none

/-- What was answered when the identity was asked for first. -/
def firstAnswer? (start : Draft) (calls : List Call) (identity : Identity) : Option Ref :=
  lookupEntry identity (calls.filterMap start.asked?)

/-- The first answer stays the same, and a call can only give one to an identity that has none. -/
theorem firstAnswer?_concat {call : Call} {identity : Identity} :
    start.firstAnswer? (calls ++ [call]) identity =
      (start.firstAnswer? calls identity).or (lookupEntry identity (start.asked? call).toList) := by
  rw [firstAnswer?, List.filterMap_append, lookupEntry_append]
  cases h : start.asked? call <;> simp [h, firstAnswer?]

theorem firstAnswer?_concat_of_some {call : Call} {identity : Identity} {known : Ref}
    (h : start.firstAnswer? calls identity = some known) :
    start.firstAnswer? (calls ++ [call]) identity = some known := by
  rw [firstAnswer?_concat, h, Option.some_or]

/-- The slot became an indirection, because the node that was to be put there was known. -/
def Forwarded (start : Draft) (calls : List Call) (r : Ref) : Prop :=
  ∃ node attributes known, ⟨.intern node attributes (some r), r⟩ ∈ calls ∧
    start.firstAnswer? calls (start.identityOf node attributes) = some known ∧ known ≠ r

theorem Forwarded.concat {call : Call} (h : Forwarded start calls r) :
    Forwarded start (calls ++ [call]) r := by
  obtain ⟨node, attributes, known, hmem, hknown, hne⟩ := h
  exact ⟨node, attributes, known, List.mem_append_left _ hmem, firstAnswer?_concat_of_some hknown,
    hne⟩

/-! ### What the table records -/

/-- The identities of the draft record the calls that were made. -/
structure Recorded (start : Draft) (calls : List Call) (b : Draft) : Prop where
  mapping : b.mapping = start.mapping
  alphabetize : b.alphabetize = start.alphabetize
  indexed : b.Indexed
  identities : ∀ identity,
    b.identities.find? identity = start.firstAnswer? calls identity
  injective : ∀ {i i' r}, b.identities.find? i = some r → b.identities.find? i' = some r → i = i'
  answered : ∀ {node attributes forwarding} {r : Ref},
    ⟨.intern node attributes forwarding, r⟩ ∈ calls →
      ∃ known, b.identities.find? (start.identityOf node attributes) = some known ∧
        (r = known ∨ forwarding = some r ∧ b.Holds r (.indirection known))
  filled : ∀ {r n}, b.Holds r n →
    (∃ i, b.identities.find? i = some r) ∨ Forwarded start calls r

/-- What holds of a draft without nodes. -/
theorem recorded_of_fresh (h : start.Fresh) : Recorded start [] start := by
  have hnone : ∀ i, start.identities.find? i = none := fun i => by
    rw [h.identities]
    rfl
  refine ⟨rfl, rfl, fun hi => ?_, hnone, fun hi => ?_, nofun, fun hr => ?_⟩
  · simp [hnone] at hi
  · simp [hnone] at hi
  · have := hr.2
    simp [h.slots] at this

/-- A call that neither asks for a node nor fills a slot leaves the record as it is. -/
theorem Recorded.of_same {filled : Ref → Prop} {call : Call} (h : Recorded start calls b)
    (hc : b.Extends filled c) (hidentities : c.identities = b.identities)
    (hholds : ∀ {r n}, c.Holds r n → b.Holds r n)
    (hasked : start.asked? call = none) :
    Recorded start (calls ++ [call]) c where
  mapping := hc.mapping.trans h.mapping
  alphabetize := hc.alphabetize.trans h.alphabetize
  indexed := hc.indexed h.indexed
  identities i := by
    rw [hidentities, h.identities, firstAnswer?_concat, hasked]
    exact Option.or_none.symm
  injective := hidentities ▸ h.injective
  answered hmem := by
    rcases List.mem_append.1 hmem with hmem | hmem
    · obtain ⟨known, hknown, hleads⟩ := h.answered hmem
      exact ⟨known, hidentities ▸ hknown, hleads.imp_right (.imp_right hc.holds)⟩
    · obtain rfl := List.mem_singleton.1 hmem
      simp [asked?] at hasked
  filled hr := hidentities ▸ (h.filled (hholds hr)).imp_right .concat

section Interning

variable (h : Recorded start calls b)

include h

/-- A call that asked for a known identity adds nothing to the record. -/
theorem Recorded.known {filled : Ref → Prop} {known : Ref}
    (hid : b.identities.find? (start.identityOf node attributes) = some known)
    (hc : b.Extends filled c) (hidentities : c.identities = b.identities)
    (hholds : ∀ {s n}, c.Holds s n → b.Holds s n ∨ (forwarding = some s ∧ r = s ∧ known ≠ s))
    (hanswer : r = known ∨ forwarding = some r ∧ c.Holds r (.indirection known)) :
    Recorded start (calls ++ [⟨.intern node attributes forwarding, r⟩]) c where
  mapping := hc.mapping.trans h.mapping
  alphabetize := hc.alphabetize.trans h.alphabetize
  indexed := hc.indexed h.indexed
  identities i := by
    rw [hidentities, h.identities, firstAnswer?_concat]
    change _ = Option.or _ (lookupEntry i [(start.identityOf node attributes, r)])
    by_cases hi : start.identityOf node attributes = i
    · rw [← hi, ← h.identities, hid, Option.some_or]
    · rw [lookupEntry, if_neg hi, lookupEntry, Option.or_none]
  injective := hidentities ▸ h.injective
  answered hmem := by
    rw [hidentities]
    rcases List.mem_append.1 hmem with hmem | hmem
    · obtain ⟨known', hknown', hleads⟩ := h.answered hmem
      exact ⟨known', hknown', hleads.imp_right (.imp_right hc.holds)⟩
    · cases List.mem_singleton.1 hmem
      exact ⟨known, hid, hanswer⟩
  filled hs := by
    rw [hidentities]
    rcases hholds hs with hs | ⟨rfl, rfl, hne⟩
    · exact (h.filled hs).imp_right .concat
    · have hfirst := h.identities _ ▸ hid
      exact .inr ⟨node, attributes, known, by simp, firstAnswer?_concat_of_some hfirst, hne⟩

/-- A call that asked for a new identity adds it to the record, with a slot that held no node. -/
theorem Recorded.new {filled : Ref → Prop}
    (hid : b.identities.find? (start.identityOf node attributes) = none)
    (hc : b.Extends filled c)
    (hidentities : c.identities = b.identities.insert (start.identityOf node attributes) r)
    (hholds : ∀ {s n}, c.Holds s n → b.Holds s n ∨ s = r) (hfresh : ∀ n, ¬b.Holds r n) :
    Recorded start (calls ++ [⟨.intern node attributes forwarding, r⟩]) c where
  mapping := hc.mapping.trans h.mapping
  alphabetize := hc.alphabetize.trans h.alphabetize
  indexed := hc.indexed h.indexed
  identities i := by
    rw [hidentities, OrderedMap.find?_insert, firstAnswer?_concat]
    change _ = Option.or _ (lookupEntry i [(start.identityOf node attributes, r)])
    by_cases hi : start.identityOf node attributes = i
    · rw [if_pos hi, ← hi, ← h.identities, hid, Option.none_or, lookupEntry, if_pos rfl]
    · rw [if_neg hi, h.identities, lookupEntry, if_neg hi, lookupEntry, Option.or_none]
  injective {i i' s} hi hi' := by
    rw [hidentities] at hi hi'
    have hnot : ∀ {i}, b.identities.find? i ≠ some r := fun hr => hfresh _ (h.indexed hr)
    rcases OrderedMap.eq_or_of_find?_insert hi with hold | ⟨rfl, rfl⟩
    · rcases OrderedMap.eq_or_of_find?_insert hi' with hold' | ⟨-, rfl⟩
      · exact h.injective hold hold'
      · exact absurd hold hnot
    · rcases OrderedMap.eq_or_of_find?_insert hi' with hold' | ⟨rfl, -⟩
      · exact absurd hold' hnot
      · rfl
  answered hmem := by
    rw [hidentities]
    rcases List.mem_append.1 hmem with hmem | hmem
    · obtain ⟨known, hknown, hleads⟩ := h.answered hmem
      exact ⟨known, OrderedMap.find?_insert_of_find? hid hknown,
        hleads.imp_right (.imp_right hc.holds)⟩
    · cases List.mem_singleton.1 hmem
      exact ⟨r, by rw [OrderedMap.find?_insert, if_pos rfl], .inl rfl⟩
  filled {s n} hs := by
    rw [hidentities]
    rcases hholds hs with hs | rfl
    · refine (h.filled hs).imp (.imp fun i hi => ?_) .concat
      exact OrderedMap.find?_insert_of_find? hid hi
    · exact .inl ⟨_, by rw [OrderedMap.find?_insert, if_pos rfl]⟩

/-- A node that is stored is recorded. -/
theorem Recorded.interned
    (hc : b.Interned (node.canonical b.mapping b.alphabetize) attributes forwarding r c) :
    Recorded start (calls ++ [⟨.intern node attributes forwarding, r⟩]) c := by
  have hextends := hc.extends.1
  rw [h.mapping, h.alphabetize] at hc
  cases hc with
  | shared hid hstore =>
    have hserial := (AttributeStore.writes_of_add hstore).serial
    exact h.known hid hextends rfl (fun hs => .inl ⟨hs.1.trans hserial, hs.2⟩) (.inl rfl)
  | forwarded hid hstore hempty =>
    have hserial := (AttributeStore.writes_of_add hstore).serial
    refine h.known hid hextends rfl (fun {s n} hs => ?_)
      (.inr ⟨rfl, holds_set_self hserial hempty⟩)
    rw [holds_set_iff hserial hempty.hasSlot] at hs
    split at hs
    · next heq =>
      subst heq
      exact .inr ⟨rfl, rfl, fun heq => (h.indexed hid).not_isEmptyAt (heq ▸ hempty)⟩
    · exact .inl hs
  | stored hid hstore =>
    refine h.new hid hextends rfl (fun hs => ?_) fun _ => not_holds_nextRef
    exact ((holds_push_iff hstore.serial).1 hs).imp_right And.left
  | filled hid hstore hempty =>
    refine h.new hid hextends rfl (fun {s n} hs => ?_) fun _ hr => hr.not_isEmptyAt hempty
    rw [holds_set_iff hstore.serial hempty.hasSlot] at hs
    split at hs
    · next heq => exact .inr heq
    · exact .inl hs

/-- **Whatever the next call is, it is recorded.** -/
theorem Recorded.step {e : Edit} {a : e.Answer} (hrun : e.run b = .ok (a, c)) :
    Recorded start (calls ++ [⟨e, a⟩]) c := by
  have hextends := Edit.run_extends hrun
  cases e with
  | reserve =>
    obtain ⟨rfl, rfl⟩ := Prod.mk.inj (Except.ok.inj hrun)
    exact h.of_same hextends rfl holds_of_reserve rfl
  | intern node attributes forwarding => exact h.interned (Build.interned_of_intern hrun)
  | annotate r attributes =>
    obtain ⟨store, hadd, rfl⟩ := Build.exists_of_addAttributes hrun
    have hserial := (AttributeStore.writes_of_add hadd).serial
    exact h.of_same hextends rfl (fun hs => ⟨hs.1.trans hserial, hs.2⟩) rfl
  | bindRoot root r =>
    obtain ⟨roots, rfl⟩ := Build.exists_of_addRoot hrun
    exact h.of_same hextends rfl (fun hs => hs) rfl
  | annotateRoot root attributes =>
    obtain ⟨store, hadd, rfl⟩ := Build.exists_of_addRootAttributes hrun
    have hserial := AttributeStore.serial_addRoot hadd
    exact h.of_same hextends rfl (fun hs => ⟨hs.1.trans hserial, hs.2⟩) rfl

end Interning

/-- **The identities of a draft record the run that made it.** -/
theorem Runs.recorded (hstart : start.Fresh) (h : start.Runs calls b) : Recorded start calls b := by
  induction h with
  | nil => exact recorded_of_fresh hstart
  | call _ hrun ih => exact ih.step hrun

/-! ### What the record says of calls -/

/-- A call without a reserved slot was answered with what its identity belongs to. -/
theorem Recorded.find?_eq_answer (h : Recorded start calls b)
    (hmem : ⟨.intern node attributes none, r⟩ ∈ calls) :
    b.identities.find? (start.identityOf node attributes) = some r := by
  obtain ⟨known, hknown, rfl | ⟨hnone, -⟩⟩ := h.answered hmem
  · exact hknown
  · cases hnone

/-- **A draft stores by identity**, whatever is done to it.

Of the calls of a run that asked for nodes without reserved slots, two were answered alike exactly
if they asked for the same canonical form and the same identity texts, for which the order of
attributes makes no difference; the answer is the one that was given when the identity was asked for
first. No slot that holds a node will ever hold another one. The next call either finds its identity
and adds no slot, or adds one; and with a reserved slot, either puts an indirection to the node of
its identity there, or the node itself. -/
theorem Runs.interns_by_identity (hstart : start.Fresh) (h : start.Runs calls b) :
    (∀ {node node' attributes attributes'} {r r' : Ref},
      ⟨.intern node attributes none, r⟩ ∈ calls → ⟨.intern node' attributes' none, r'⟩ ∈ calls →
        (r = r' ↔ node.canonical start.mapping start.alphabetize =
            node'.canonical start.mapping start.alphabetize ∧
          attributes.identityTexts = attributes'.identityTexts)) ∧
    (∀ {node attributes} {r : Ref}, ⟨.intern node attributes none, r⟩ ∈ calls →
      start.firstAnswer? calls (start.identityOf node attributes) =
        some r) ∧
    (∀ {s t : Attributes}, s.toList.Perm t.toList → s.identityTexts = t.identityTexts) ∧
    (∀ {calls' c r n}, b.Runs calls' c → b.Holds r n → c.Holds r n) ∧
    (∀ {node attributes r c}, Build.intern node attributes none b = .ok (r, c) →
      c.Holds r (node.canonical start.mapping start.alphabetize) ∧
      match start.firstAnswer? calls (start.identityOf node attributes) with
      | some known => r = known ∧ c.slots = b.slots
      | none => r = b.nextRef ∧
          c.slots = b.slots.push (some (node.canonical start.mapping start.alphabetize))) ∧
    (∀ {node attributes slot r c}, Build.intern node attributes (some slot) b = .ok (r, c) →
      b.IsEmptyAt slot ∧ r = slot ∧ c.Holds slot
        (match start.firstAnswer? calls (start.identityOf node attributes) with
          | some known => .indirection known
          | none => node.canonical start.mapping start.alphabetize)) := by
  have hrecorded := h.recorded hstart
  refine ⟨fun hmem hmem' => ?_, fun hmem => ?_, Attributes.identityTexts_eq_of_perm,
    fun hrun hr => hrun.holds hr, fun {node attributes r c} hrun => ?_,
    fun {node attributes slot r c} hrun => ?_⟩
  · -- no two identities belong to one slot, and no identity to two
    have hr := hrecorded.find?_eq_answer hmem
    have hr' := hrecorded.find?_eq_answer hmem'
    rw [← Prod.mk.injEq]
    constructor
    · rintro rfl
      exact hrecorded.injective hr hr'
    · intro hsame
      exact Option.some.inj (hr.symm.trans ((congrArg _ hsame).trans hr'))
  · rw [← hrecorded.identities]
    exact hrecorded.find?_eq_answer hmem
  · have hinterned := Build.interned_of_intern hrun
    rw [hrecorded.mapping, hrecorded.alphabetize] at hinterned
    rw [← hrecorded.identities]
    cases hinterned with
    | shared hid hstore =>
      have hserial := (AttributeStore.writes_of_add hstore).serial
      have hholds := hrecorded.indexed hid
      rw [identityOf, hid]
      exact ⟨⟨hholds.1.trans hserial.symm, hholds.2⟩, rfl, rfl⟩
    | stored hid hstore =>
      rw [identityOf, hid]
      exact ⟨(holds_push_iff hstore.serial).2 (.inr ⟨rfl, rfl⟩), rfl, rfl⟩
  · have hinterned := Build.interned_of_intern hrun
    rw [hrecorded.mapping, hrecorded.alphabetize] at hinterned
    rw [← hrecorded.identities]
    cases hinterned with
    | forwarded hid hstore hempty =>
      have hserial := (AttributeStore.writes_of_add hstore).serial
      rw [identityOf, hid]
      exact ⟨hempty, rfl, holds_set_self hserial hempty⟩
    | filled hid hstore hempty =>
      rw [identityOf, hid]
      exact ⟨hempty, rfl, holds_set_self hstore.serial hempty⟩

/-! ### Running calls -/

instance instDecidableEqAnswer : (e : Edit) → DecidableEq e.Answer
  | .reserve | .intern .. => inferInstanceAs (DecidableEq Ref)
  | .annotate .. | .bindRoot .. | .annotateRoot .. => inferInstanceAs (DecidableEq Unit)

/-- The draft after the calls, if they are answered like that. -/
def replay (b : Draft) : List Call → Option Draft
  | [] => some b
  | ⟨e, a⟩ :: rest =>
    match e.run b with
    | .ok (a', c) => if a' = a then c.replay rest else none
    | .error _ => none

/-- Calls that can be replayed are those of a run. -/
theorem Runs.replay (h : start.Runs calls b) (hreplay : b.replay calls' = some c) :
    start.Runs (calls ++ calls') c := by
  induction calls' generalizing calls b with
  | nil =>
    obtain rfl := Option.some.inj hreplay
    rwa [List.append_nil]
  | cons call rest ih =>
    obtain ⟨e, a⟩ := call
    rw [Draft.replay] at hreplay
    split at hreplay
    · next a' d hrun =>
      split at hreplay
      · next heq =>
        subst heq
        rw [← List.singleton_append, ← List.append_assoc]
        exact ih (h.call hrun) hreplay
      · cases hreplay
    · cases hreplay

/-- Strings are asked for three times, the second time behind a slot that an array points to. -/
def threefold : List Call :=
  [⟨.reserve, ⟨0, 0⟩⟩,
    ⟨.intern (.array ⟨0, 0⟩) ∅ none, ⟨0, 1⟩⟩,
    ⟨.intern (.primitive .string) (.singleton .names (.singleton "word")) none, ⟨0, 2⟩⟩,
    ⟨.intern (.primitive .string) ∅ (some ⟨0, 0⟩), ⟨0, 0⟩⟩,
    ⟨.intern (.primitive .string) ∅ none, ⟨0, 2⟩⟩]

/-- The first and the third call are answered with one slot, which the array and the strings do not
share, and no further call gets another answer. -/
theorem interns_by_identity_threefold :
    ∃ b, (initial ⟨true⟩).Runs threefold b ∧
      (⟨0, 1⟩ : Ref) ≠ ⟨0, 2⟩ ∧
      ∀ {r c}, Build.intern (.primitive .string) ∅ none b = .ok (r, c) →
        r = ⟨0, 2⟩ ∧ c.slots = b.slots := by
  have hreplay : ((initial ⟨true⟩).replay threefold).isSome = true := by decide +kernel
  obtain ⟨b, hb⟩ := Option.isSome_iff_exists.1 hreplay
  have hrun : (initial ⟨true⟩).Runs threefold b := Runs.nil.replay hb
  obtain ⟨hsame, hfirst, -, -, hnext, -⟩ := hrun.interns_by_identity fresh_initial
  have harray : (⟨.intern (.array ⟨0, 0⟩) ∅ none, ⟨0, 1⟩⟩ : Call) ∈ threefold := .tail _ (.head _)
  have hstring : (⟨.intern (.primitive .string) ∅ none, ⟨0, 2⟩⟩ : Call) ∈ threefold :=
    .tail _ (.tail _ (.tail _ (.tail _ (.head _))))
  refine ⟨b, hrun, fun heq => ?_, fun {r c} hrun => ?_⟩
  · cases ((hsame harray hstring).1 heq).1
  · have hcall := (hnext hrun).2
    rw [hfirst hstring] at hcall
    exact hcall

end Draft

end SchemaGraph
