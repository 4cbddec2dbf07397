import SchemaGraph.Proofs.Rebuild.CourseOfRun
import SchemaGraph.Proofs.Rebuild.Derived

/-!
# What becomes of a replaced group

A script can re-enter the rebuilding while the nodes above its group are still in progress, and a
group can lie on a cycle through its own replacement. All the same, what the roots reach comes out
as one would write it down (`SchemaGraph.Derivation.run_replaces`): each group that was met has
one slot, every node outside the groups is stored with its children replaced by what
stands for them, where the slot of a group stands for all its members, and behind a slot is what
the script of the group returned.

That a script may return the slot it was given is how self-referential replacements are built: it
has then put a node behind the slot itself, which is what the new generation has there.
-/

namespace SchemaGraph

/-! ### Nodes behind references -/

namespace Generation

/-- The reference has the node, or that of an indirection to it. -/
def HasBehind (g : Generation) (r : Ref) (node : Node) : Prop :=
  ∃ home, g.get home = .ok node ∧ (r = home ∨ g.get r = .ok (.indirection home))

variable {b : Draft} {new : Generation} {r : Ref} {node : Node}

theorem get_of_holds (hnew : ofDraft b = .ok new) (h : b.Holds r node) : new.get r = .ok node := by
  obtain ⟨-, hslots, hstore, -⟩ := of_ofDraft hnew
  obtain ⟨hserial, hslot⟩ := h
  have hnode : new.node? r.index = some node := by
    rw [hslots, Array.getElem?_map] at hslot
    simpa [node?] using hslot
  have hserial' : r.serial = new.serial := by rw [hserial, serial, hstore, Draft.serial]
  rw [get, Ref.requireSerial_eq_ok hserial']
  exact nodeAt_eq_ok_of_node? hnode

theorem hasBehind_of_holdsBehind (hnew : ofDraft b = .ok new) (h : b.HoldsBehind r node) :
    new.HasBehind r node := by
  obtain ⟨home, hhome, hleads⟩ := h
  exact ⟨home, get_of_holds hnew hhome, hleads.imp_right (get_of_holds hnew)⟩

theorem not_isEmptyAt_of_ofDraft (hnew : ofDraft b = .ok new) : ¬b.IsEmptyAt r := by
  rintro ⟨-, hslot⟩
  rw [(of_ofDraft hnew).2.1, Array.getElem?_map] at hslot
  simp at hslot

end Generation

/-! ### What is counted once -/

/-- Of the entries that are counted there is only one if the count is one. -/
theorem eq_of_countP_eq_one {α : Type} {p : α → Bool} {as : List α} {a b : α}
    (h : as.countP p = 1) (ha : a ∈ as) (hb : b ∈ as) (hpa : p a = true) (hpb : p b = true) :
    a = b := by
  obtain ⟨before, after, rfl⟩ := List.append_of_mem ha
  rw [List.countP_append, List.countP_cons, if_pos hpa] at h
  have hbefore : before.countP p = 0 := by omega
  have hafter : after.countP p = 0 := by omega
  rcases List.mem_append.1 hb with hb | hb
  · exact absurd hpb (List.countP_eq_zero.1 hbefore b hb)
  · rcases List.mem_cons.1 hb with rfl | hb
    · rfl
    · exact absurd hpb (List.countP_eq_zero.1 hafter b hb)

namespace Derivation

variable {d : Derivation} {restarts : Prop} {w w' w₁ : Workspace} {deeds : List Deed} {k : Nat}
  {group : Group} {slot : Ref} {new : Generation}

/-- What stands for an old node once it was rebuilt or replaced. -/
def counterpart (w : Workspace) (r : Ref) : Ref := (w.counterparts.find? r.index).getD default

/-- **What a script returned for its group**, which it did once: behind the slot is an indirection
to it, or, if it is the slot itself, what an operation has put behind the slot. -/
structure ReplacedBy (d : Derivation) (new : Generation) (deeds : List Deed) (k : Nat)
    (slot replacement : Ref) : Prop where
  returned : ∀ s r, .returned k s r ∈ deeds ↔ s = slot ∧ r = replacement
  other : replacement ≠ slot → new.get slot = .ok (.indirection replacement)
  put : replacement = slot → ∃ node attributes,
    .edited (.intern node attributes (some slot)) ∈ deeds
  behind : ∀ node attributes, .edited (.intern node attributes (some slot)) ∈ deeds →
    new.HasBehind slot (node.canonical d.mapping d.alphabetize)

/-- In a course to the end of a rebuilding, the script of a group that was started once has
returned what is behind its slot. -/
theorem Course.exists_replacedBy (h : d.Course restarts d.workspace deeds w)
    (hnew : Generation.ofDraft w.draft = .ok new) (honce : timesStarted k w.journal = 1)
    (hslot : ∀ members s, .replacing k members s ∈ w.journal → s = slot) :
    ∃ replacement, d.ReplacedBy new deeds k slot replacement := by
  have hplaced : Placed d.workspace := fun _ _ hs => by
    simp [workspace, EmptyCollection.emptyCollection] at hs
  have hcount : deeds.countP (Deed.isReturnOf k) = 1 := by
    have heq := h.timesStarted_eq (k := k)
    rw [honce] at heq
    have hzero : timesStarted k d.workspace.journal = 0 := rfl
    omega
  obtain ⟨deed, hdeed, hreturn⟩ := List.countP_pos_iff.1 (Nat.lt_of_lt_of_eq Nat.one_pos hcount.symm)
  cases deed with
  | edited edit => cases hreturn
  | returned k' s replacement =>
    obtain rfl : k' = k := of_decide_eq_true hreturn
    obtain ⟨members, hevent⟩ := h.replacing_of_returned hdeed
    obtain rfl := hslot members s hevent
    obtain ⟨hother, hself⟩ := h.of_returned hplaced hdeed
    refine ⟨replacement, fun s' r => ⟨fun hmem => ?_, ?_⟩, fun hne => ?_, fun heq => ?_,
      fun node attributes hedit => ?_⟩
    · have heq := eq_of_countP_eq_one hcount hmem hdeed (decide_eq_true rfl) hreturn
      exact (Deed.returned.inj heq).2
    · rintro ⟨rfl, rfl⟩
      exact hdeed
    · exact Generation.get_of_holds hnew (hother hne)
    · -- the slot is not empty in the end, so some operation has filled it
      rcases hself heq with hvacant | ⟨edit, hedit, node, attributes, rfl⟩
      · exact absurd hvacant.empty (Generation.not_isEmptyAt_of_ofDraft hnew)
      · exact ⟨node, attributes, hedit⟩
    · have hindexed : d.workspace.draft.Indexed := steady_workspace.indexed
      exact Generation.hasBehind_of_holdsBehind hnew (h.of_edited hindexed hedit)

section Groups

variable {groups : List Group} (hplan : d.plan = .replace groups)

include hplan

/-- A group that was met once its roots are rebuilt has one slot, for which its script was started
once, and its members go on to stand for it. -/
theorem Proceeds.exists_slot (hroots : d.Proceeds False [] d.workspace w₁)
    (hpending : d.Proceeds True [] w₁ w) (hfault : d.plan.fault? d.old.serial = none)
    (hk : groups[k]? = some group) (hmet : w₁.met group = true)
    (honce : timesStarted k w.journal = 1) :
    ∃ slot, (∀ members s, .replacing k members s ∈ w.journal ↔ members = group.members ∧ s = slot) ∧
      ∀ m ∈ group.members, w₁.counterparts.find? m.index = some slot ∧
        w.counterparts.find? m.index = some slot := by
  obtain ⟨-, hapart⟩ := Plan.groups_of_fault? hfault
  have hk' : d.plan.groups[k]? = some group := by rw [hplan]; exact hk
  obtain ⟨deeds, hcourse⟩ := hpending.course
  obtain ⟨slot, hevent, hslot⟩ := hroots.underway.replaced k group hk' hmet
  obtain ⟨slot', hevent', hslot'⟩ := hpending.underway.replaced k group hk' (hcourse.met hmet)
  -- the journal has one start of the group, so it is the same slot
  have hunique : ∀ members s, .replacing k members s ∈ w.journal →
      members = group.members ∧ s = slot := fun members s hmem => by
    have heq := eq_of_countP_eq_one honce hmem (hcourse.mem_journal hevent) (decide_eq_true rfl)
      (decide_eq_true rfl)
    exact (Event.replacing.inj heq).2
  obtain rfl : slot' = slot := (hunique _ _ hevent').2
  refine ⟨slot', fun members s => ⟨hunique members s, ?_⟩, fun m hm => ⟨hslot m hm, hslot' m hm⟩⟩
  rintro ⟨rfl, rfl⟩
  exact hevent'

/-- A node outside the groups that was rebuilt from the roots is stored with its children replaced by
what stands for them. -/
theorem Proceeds.exists_node {index : Nat} {r : Ref} (hroots : d.Proceeds False [] d.workspace w₁)
    (hpending : d.Proceeds True [] w₁ w) (hfault : d.plan.fault? d.old.serial = none)
    (hnew : Generation.ofDraft w.draft = .ok new) (hgroup : d.plan.groupAt? index = none)
    (hc : w₁.counterparts.find? index = some r) :
    w.counterparts.find? index = some r ∧ ∃ node, d.old.node? index = some node ∧
      (∀ c ∈ node.children, w₁.counterparts.contains c.index = true) ∧
      new.HasBehind r ((node.mapChildren (counterpart w₁)).canonical d.mapping d.alphabetize) := by
  obtain ⟨-, hapart⟩ := Plan.groups_of_fault? hfault
  obtain ⟨deeds₁, hcourse₁⟩ := hroots.course
  obtain ⟨deeds₂, hcourse₂⟩ := hpending.course
  -- no placeholder is left when the roots are rebuilt, so what has an image has a counterpart
  have himage : ∀ {v : Workspace}, d.Underway [] v → ∀ i, v.image? i = v.counterparts.find? i := by
    intro v hv i
    cases hplace : v.placeholders.find? i with
    | none => rw [Workspace.image?, hplace, Option.or_none]
    | some s => simpa using hv.onPath.placeholder hplace
  have hgoal : ∀ c, d.goal c = c.index := fun c => by rw [goal, hplan]; rfl
  obtain ⟨node, hnode, hchildren, hbehind⟩ :=
    (hcourse₁.steady hapart steady_workspace).settled index r hgroup hc
  refine ⟨?_, node, hnode, fun c hchild => ?_, ?_⟩
  · rw [← himage hpending.underway]
    exact hcourse₂.image hapart hroots.underway.placeholders (fun _ => hgroup)
      (Workspace.image?_of_counterpart hc)
  · rw [OrderedMap.contains, ← himage hroots.underway, ← hgoal]
    exact hchildren c hchild
  · have hmap : d.imageOf w₁ = counterpart w₁ := by
      funext c
      rw [imageOf, counterpart, himage hroots.underway, hgoal]
    rw [← hmap]
    exact Generation.hasBehind_of_holdsBehind hnew (hcourse₂.extends.holdsBehind hbehind)

/-- **What a replacement makes of an old generation.** Let a rebuilding with groups run to its end,
and let its draft be frozen. Each group that was met once the roots were rebuilt has one slot: its
script was started once, all members stand for the slot, and behind the slot is what the script
returned. Every node outside the groups that was rebuilt by then is stored with its children
replaced by what stands for them, whether they are members of groups or not. -/
theorem run_replaces (hrun : d.run = .ok w) (hnew : Generation.ofDraft w.draft = .ok new) :
    ∃ w₁, d.rebuildRoots d.workspace = .ok ((), w₁) ∧
      (∃ deeds, d.Course True d.workspace deeds w) ∧
      (∀ k group, groups[k]? = some group → w₁.met group = true → ∃ slot,
        timesStarted k w.journal = 1 ∧
        (∀ members s, .replacing k members s ∈ w.journal ↔ members = group.members ∧ s = slot) ∧
        (∀ m ∈ group.members, w₁.counterparts.find? m.index = some slot ∧
          w.counterparts.find? m.index = some slot) ∧
        ∀ deeds, d.Course True d.workspace deeds w →
          ∃ replacement, d.ReplacedBy new deeds k slot replacement) ∧
      ∀ index r, d.plan.groupAt? index = none → w₁.counterparts.find? index = some r →
        w.counterparts.find? index = some r ∧ ∃ node, d.old.node? index = some node ∧
          (∀ c ∈ node.children, w₁.counterparts.contains c.index = true) ∧
          new.HasBehind r
            ((node.mapChildren (counterpart w₁)).canonical d.mapping d.alphabetize) := by
  have hfolds : d.plan.foldsCycles = true := by rw [hplan]; rfl
  obtain ⟨hfault, w₁, hroots, h₁, h₂⟩ := course_of_run hfolds hrun
  obtain ⟨deeds₁, hcourse₁⟩ := h₁.course
  obtain ⟨deeds₂, hcourse₂⟩ := h₂.course
  refine ⟨w₁, hroots, ⟨deeds₁ ++ deeds₂, (hcourse₁.mono False.elim).append hcourse₂⟩,
    fun k group hk hmet => ?_, fun index r => h₁.exists_node hplan h₂ hfault hnew⟩
  have hk' : d.plan.groups[k]? = some group := by rw [hplan]; exact hk
  have honce := run_timesStarted_of_met hrun hk' hroots hmet
  obtain ⟨slot, hevents, hslot⟩ := h₁.exists_slot hplan h₂ hfault hk hmet honce
  exact ⟨slot, honce, hevents, hslot, fun deeds h =>
    h.exists_replacedBy hnew honce fun members s hmem => ((hevents members s).1 hmem).2⟩

end Groups

/-! ### A group on a cycle -/

/-- Two classes that lead to each other, and an array of one of them. -/
def ring : Generation where
  options := ⟨false⟩
  nodes := #[.array ⟨0, 1⟩, .object [⟨"next", ⟨0, 2⟩, false⟩],
    .object [⟨"next", ⟨0, 1⟩, false⟩]]
  store := .empty 0
  roots := .ofList [("top", ⟨0, 0⟩)]
  announced := false
  children_inBounds := by decide
  roots_inBounds := by decide

/-- Both classes are replaced by one that leads to what replaces the second of them: to itself. -/
def ringGroup : Group where
  members := [⟨0, 1⟩, ⟨0, 2⟩]
  script slot := do
    let next ← Script.visit ⟨0, 2⟩
    Script.intern (.object [⟨"next", next, false⟩]) ∅ (some slot)

/-- The derivation that replaces the cycle. -/
def closing : Derivation := ⟨ring, .replace [ringGroup], .preserving, false⟩

/-- Both classes stand for one slot in the end, and the array is one of that slot. -/
theorem run_replaces_closing :
    ∃ w new r slot, closing.run = .ok w ∧ Generation.ofDraft w.draft = .ok new ∧
      w.counterparts.find? 1 = some slot ∧ w.counterparts.find? 2 = some slot ∧
      w.counterparts.find? 0 = some r ∧ new.HasBehind r (.array slot) := by
  have hfreezes : (match closing.run with
    | .ok w => (Generation.ofDraft w.draft).toBool
    | .error _ => false) = true := by decide +kernel
  have hmeets : (match closing.rebuildRoots closing.workspace with
    | .ok (_, w) => w.met ringGroup && w.counterparts.contains 0
    | .error _ => false) = true := by decide +kernel
  split at hfreezes
  case h_2 => cases hfreezes
  case h_1 w hrun =>
    cases hnew : Generation.ofDraft w.draft with
    | error f =>
      rw [hnew] at hfreezes
      cases hfreezes
    | ok new =>
      obtain ⟨w₁, hroots, -, hgroups, hnodes⟩ := run_replaces (d := closing) rfl hrun hnew
      rw [hroots] at hmeets
      obtain ⟨hmet, hcontains⟩ := Bool.and_eq_true_iff.1 hmeets
      obtain ⟨slot, -, -, hslot, -⟩ := hgroups 0 ringGroup rfl hmet
      obtain ⟨r, hr⟩ := Option.isSome_iff_exists.1 hcontains
      obtain ⟨hr', node, hnode, -, hbehind⟩ := hnodes 0 r rfl hr
      obtain rfl : Node.array ⟨0, 1⟩ = node := Option.some.inj hnode
      have hfirst := hslot ⟨0, 1⟩ (by simp [ringGroup])
      have hsecond := hslot ⟨0, 2⟩ (by simp [ringGroup])
      refine ⟨w, new, r, slot, hrun, hnew, hfirst.2, hsecond.2, hr', ?_⟩
      have hchild : counterpart w₁ ⟨0, 1⟩ = slot := by
        rw [counterpart, hfirst.1]
        rfl
      rw [Node.mapChildren, hchild] at hbehind
      exact hbehind

end Derivation

end SchemaGraph
