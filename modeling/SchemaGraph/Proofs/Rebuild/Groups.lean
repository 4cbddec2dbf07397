import SchemaGraph.Proofs.Rebuild.Run

/-!
# How often a group is replaced

A script may ask for any old node, so while one group is replaced others may be met, and so may
the group itself. Two facts keep count of the starts of a group's script, whatever the scripts
do: a group is only started from a visit if none of its members has a counterpart, and from then
on all of them have one. So visits start each group at most once.

The groups that no root reached are another matter. They are listed before the first of them is
replaced, and then started one after the other, whether or not the scripts of those before have
met them in the meantime (`SchemaGraph.Derivation.metBeforeTurn`). Such a group is started twice,
and it is the only exception (`SchemaGraph.Derivation.run_timesStarted`).

The invariant is `SchemaGraph.Derivation.Tally`: the journal has one start for each group that
was met, and an `extra` one for each group that was met before its turn.
-/

namespace SchemaGraph

/-! ### Groups that fit -/

namespace Plan

variable {groups : List Group} {group : Group} {index n k serial : Nat}

/-- Two groups have no member in common. -/
def Apart (a b : Group) : Prop := ∀ m ∈ a.members, ∀ m' ∈ b.members, m.index ≠ m'.index

theorem findGroup?_eq_none_iff :
    findGroup? index n groups = none ↔ ∀ group ∈ groups, ∀ m ∈ group.members, m.index ≠ index := by
  induction groups generalizing n with
  | nil => simp [findGroup?]
  | cons group rest ih =>
    rw [findGroup?, List.forall_mem_cons, ← ih (n := n + 1)]
    split
    · next hany =>
      obtain ⟨m, hm, heq⟩ := List.any_eq_true.1 hany
      constructor
      · intro h
        cases h
      · rintro ⟨hnone, -⟩
        exact absurd (of_decide_eq_true heq) (hnone m hm)
    · next hany =>
      constructor
      · intro h
        refine ⟨fun m hm heq => hany ?_, h⟩
        exact List.any_eq_true.2 ⟨m, hm, decide_eq_true heq⟩
      · exact And.right

theorem exists_of_findGroup? (h : findGroup? index n groups = some (k, group)) :
    ∃ j, k = n + j ∧ groups[j]? = some group ∧ ∃ m ∈ group.members, m.index = index := by
  induction groups generalizing n with
  | nil => simp [findGroup?] at h
  | cons first rest ih =>
    rw [findGroup?] at h
    split at h
    · next hany =>
      obtain ⟨rfl, rfl⟩ := Prod.mk.inj (Option.some.inj h)
      exact ⟨0, rfl, rfl, by simpa using hany⟩
    · obtain ⟨j, rfl, hj, hm⟩ := ih h
      exact ⟨j + 1, by omega, hj, hm⟩

/-- Groups without a fault are not empty and pairwise apart, also from those before them. -/
theorem of_groupsFault? {earlier : List Group} (h : groupsFault? serial earlier groups = none)
    (hearlier : earlier.Pairwise Apart) :
    (∀ group ∈ groups, group.members ≠ []) ∧ (earlier ++ groups).Pairwise Apart := by
  induction groups generalizing earlier with
  | nil => exact ⟨by simp, by simpa using hearlier⟩
  | cons group rest ih =>
    rw [groupsFault?] at h
    split at h
    · cases h
    · next hempty =>
      obtain ⟨hmembers, hrest⟩ := Option.or_eq_none_iff.1 h
      have hapart : (earlier ++ [group]).Pairwise Apart := by
        refine List.pairwise_append.2 ⟨hearlier, List.pairwise_singleton _ _, ?_⟩
        intro first hfirst g hg m hm m' hm'
        obtain rfl := List.mem_singleton.1 hg
        have hfault := List.findSome?_eq_none_iff.1 hmembers m' hm'
        rw [memberFault?] at hfault
        split at hfault
        · cases hfault
        · -- no earlier group has a member at this index
          exact findGroup?_eq_none_iff.1 (Option.map_eq_none_iff.1 hfault) first hfirst m hm
      obtain ⟨hne, hall⟩ := ih hrest hapart
      refine ⟨List.forall_mem_cons.2 ⟨by simpa using hempty, hne⟩, ?_⟩
      rwa [List.append_assoc, List.singleton_append] at hall

/-- What a plan that fits says about its groups. -/
theorem groups_of_fault? {p : Plan} (h : p.fault? serial = none) :
    (∀ group ∈ p.groups, group.members ≠ []) ∧ p.groups.Pairwise Apart := by
  cases p with
  | replace groups => exact of_groupsFault? h .nil
  | substitute map => exact ⟨by simp [Plan.groups], .nil⟩

/-- A node is in no more than one group. -/
theorem eq_of_mem_members {i j : Nat} {a b : Group} {m m' : Ref} (h : groups.Pairwise Apart)
    (hi : groups[i]? = some a) (hj : groups[j]? = some b) (hm : m ∈ a.members) (hm' : m' ∈ b.members)
    (heq : m.index = m'.index) : i = j := by
  have hlt : ∀ {i j : Nat} {a b : Group} {m m' : Ref}, groups[i]? = some a → groups[j]? = some b →
      m ∈ a.members → m' ∈ b.members → m.index = m'.index → ¬i < j := by
    intro i j a b m m' hi hj hm hm' heq hij
    obtain ⟨_, rfl⟩ := List.getElem?_eq_some_iff.1 hi
    obtain ⟨hb, rfl⟩ := List.getElem?_eq_some_iff.1 hj
    exact List.pairwise_iff_getElem.1 h i j _ hb hij m hm m' hm' heq
  have := hlt hi hj hm hm' heq
  have := hlt hj hi hm' hm heq.symm
  omega

end Plan

/-! ### Counting -/

/-- Whether the event is the start of the script of group `k`. -/
def Event.isStartOf (k : Nat) : Event → Bool
  | replacing group _ _ => group = k
  | remark _ => false

/-- How often the script of group `k` was started. -/
def timesStarted (k : Nat) (events : List Event) : Nat := events.countP (Event.isStartOf k)

@[simp]
theorem timesStarted_append {k : Nat} {events events' : List Event} :
    timesStarted k (events ++ events') = timesStarted k events + timesStarted k events' :=
  List.countP_append

theorem timesStarted_remark {k : Nat} {r : Ref} : timesStarted k [.remark r] = 0 := rfl

theorem timesStarted_replacing {k number : Nat} {members : List Ref} {slot : Ref} :
    timesStarted k [.replacing number members slot] = if number = k then 1 else 0 := by
  rw [timesStarted, List.countP_singleton]
  simp [Event.isStartOf]

/-- Whether a member of the group has a counterpart. -/
def Workspace.met (w : Workspace) (group : Group) : Bool :=
  group.members.any fun m => w.counterparts.contains m.index

theorem Workspace.met_iff {w : Workspace} {group : Group} :
    w.met group = true ↔ ∃ m ∈ group.members, w.counterparts.contains m.index = true := by
  rw [met, List.any_eq_true]

theorem Workspace.met_congr {w w' : Workspace} {group : Group}
    (h : ∀ m ∈ group.members, w'.counterparts.contains m.index = w.counterparts.contains m.index) :
    w'.met group = w.met group := by
  rw [Bool.eq_iff_iff, met_iff, met_iff]
  exact exists_congr fun m => and_congr_right fun hm => by rw [h m hm]

namespace Derivation

open Rebuild

/-- The state of the count: either all members of a group have counterparts or none, and the
script of a group was started once if it was met, and its `extra` times. -/
structure Tally (d : Derivation) (extra : Nat → Nat) (w : Workspace) : Prop where
  whole : ∀ {k : Nat} {group : Group}, d.plan.groups[k]? = some group → w.met group = true →
    ∀ m ∈ group.members, w.counterparts.contains m.index = true
  started : ∀ {k : Nat} {group : Group}, d.plan.groups[k]? = some group →
    timesStarted k w.journal = (w.met group).toNat + extra k

/-- The count goes on from `w` to `w'`, and no counterpart is lost. -/
structure Counts (d : Derivation) (extra : Nat → Nat) (w w' : Workspace) : Prop where
  tally : d.Tally extra w'
  keeps : ∀ index, w.counterparts.contains index = true → w'.counterparts.contains index = true

variable {d : Derivation} {extra extra' : Nat → Nat} {w w' w'' : Workspace}

theorem Tally.counts (h : d.Tally extra w) : d.Counts extra w w := ⟨h, fun _ => id⟩

theorem Counts.trans (h : d.Counts extra w w') (h' : d.Counts extra' w' w'') :
    d.Counts extra' w w'' :=
  ⟨h'.tally, fun index => h'.keeps index ∘ h.keeps index⟩

theorem Counts.met {group : Group} (h : d.Counts extra w w') (hmet : w.met group = true) :
    w'.met group = true := by
  obtain ⟨m, hm, hc⟩ := Workspace.met_iff.1 hmet
  exact Workspace.met_iff.2 ⟨m, hm, h.keeps _ hc⟩

/-- What changes neither the counterparts nor the number of starts does not matter. -/
theorem Tally.counts_of_same (h : d.Tally extra w) (hcounterparts : w'.counterparts = w.counterparts)
    (hjournal : ∀ k, timesStarted k w'.journal = timesStarted k w.journal) :
    d.Counts extra w w' := by
  have hmet : ∀ group, w'.met group = w.met group := fun group =>
    Workspace.met_congr fun m _ => by rw [hcounterparts]
  refine ⟨⟨fun hk hm => ?_, fun hk => ?_⟩, fun index hc => hcounterparts ▸ hc⟩
  · rw [hcounterparts]
    exact h.whole hk (hmet _ ▸ hm)
  · rw [hjournal, hmet, h.started hk]

/-- A node of no group may get a counterpart. -/
theorem Tally.counts_insert {index : Nat} {r : Ref} (h : d.Tally extra w)
    (hindex : d.plan.groupAt? index = none)
    (hcounterparts : w'.counterparts = w.counterparts.insert index r)
    (hjournal : w'.journal = w.journal) : d.Counts extra w w' := by
  have hcontains : ∀ i, w'.counterparts.contains i =
      if index = i then true else w.counterparts.contains i := by
    intro i
    rw [hcounterparts, OrderedMap.contains, OrderedMap.find?_insert, OrderedMap.contains]
    split <;> rfl
  have hmember : ∀ {k : Nat} {group : Group}, d.plan.groups[k]? = some group → ∀ m ∈ group.members,
      w'.counterparts.contains m.index = w.counterparts.contains m.index := by
    intro k group hk m hm
    have hne := Plan.findGroup?_eq_none_iff.1 hindex group (List.mem_of_getElem? hk) m hm
    rw [hcontains, if_neg (Ne.symm hne)]
  have hmet : ∀ {k : Nat} {group : Group}, d.plan.groups[k]? = some group → w'.met group = w.met group := by
    intro k group hk
    exact Workspace.met_congr (hmember hk)
  refine ⟨⟨fun hk hm m hmem => ?_, fun hk => ?_⟩, fun i hi => ?_⟩
  · rw [hmember hk m hmem]
    exact h.whole hk (hmet hk ▸ hm) m hmem
  · rw [hjournal, hmet hk, h.started hk]
  · rw [hcontains, hi, ite_self]

/-! ### What a visit counts -/

/-- Whatever the visit does, the count goes on. -/
def VisitCounts (d : Derivation) (visit : Ref → Rebuild Ref) : Prop :=
  ∀ {extra w}, d.Tally extra w → ∀ r, Ends (visit r w) (fun _ => True) fun out =>
    d.Counts extra w out.2

theorem placeholder_counts (h : d.Tally extra w) (index : Nat) :
    Ends (placeholder index w) (fun _ => True) fun out => d.Counts extra w out.2 := by
  rw [placeholder, bind_eq (a := w) (v := w) rfl]
  cases w.placeholders.find? index with
  | some slot => exact h.counts
  | none => exact h.counts_of_same rfl fun _ => rfl

/-- An action on the new generation alone does not matter. -/
theorem build_same {α : Type} {action : Build α} :
    Ends (build action w) (fun _ => True) fun out =>
      out.2.counterparts = w.counterparts ∧ out.2.journal = w.journal :=
  ends_build (Ends.of_forall (fun _ => trivial) fun _ => ⟨rfl, rfl⟩)

theorem build_counts {α : Type} {action : Build α} (h : d.Tally extra w) :
    Ends (build action w) (fun _ => True) fun out => d.Counts extra w out.2 := by
  refine build_same.mono ?_
  rintro out ⟨hcounterparts, hjournal⟩
  exact h.counts_of_same hcounterparts fun k => by rw [hjournal]

/-- **A script counts as its visits do.** The induction is on the script. -/
theorem runScript_counts {visit : Ref → Rebuild Ref} (hvisit : d.VisitCounts visit)
    {script : Script Ref} (h : d.Tally extra w) :
    Ends (runScript visit script w) (fun _ => True) fun out => d.Counts extra w out.2 := by
  induction script generalizing w with
  | done result => exact h.counts
  | visiting old next ih =>
    refine ends_bind (hvisit h old) fun new w' h' => ?_
    exact (ih new h'.tally).mono fun _ => h'.trans
  | editing edit next ih =>
    refine ends_bind (build_counts h) fun answer w' h' => ?_
    exact (ih answer h'.tally).mono fun _ => h'.trans
  | inspecting next ih => exact ih w.draft h
  | remarking ref next ih =>
    have h' : d.Counts extra w { w with journal := w.journal ++ [.remark ref] } :=
      h.counts_of_same rfl fun k => by rw [timesStarted_append, timesStarted_remark, Nat.add_zero]
    exact (ih h'.tally).mono fun _ => h'.trans
  | declaringLoss next ih =>
    have h' : d.Counts extra w { w with lossDeclared := true } :=
      h.counts_of_same rfl fun _ => rfl
    exact (ih h'.tally).mono fun _ => h'.trans
  | failing fault => trivial

/-- A node that is in no group is settled. -/
theorem settle_counts {old : Ref} {node : Node} (h : d.Tally extra w)
    (hold : d.plan.groupAt? old.index = none) :
    Ends (d.settle old node w) (fun _ => True) fun out => d.Counts extra w out.2 := by
  cases hattributes : d.attributes old with
  | error f =>
    rw [settle_of_error hattributes]
    trivial
  | ok attributes =>
    rw [settle_of_ok hattributes]
    refine Ends.map (Ends.of_forall (fun _ => trivial) fun out => ?_)
    exact h.counts_insert hold rfl rfl

theorem mapChildrenM_counts {visit : Ref → Rebuild Ref} (hvisit : d.VisitCounts visit)
    {node : Node} (h : d.Tally extra w) :
    Ends (node.mapChildrenM visit w) (fun _ => True) fun out => d.Counts extra w out.2 :=
  (ends_mapChildrenM_of_keeps (fun v => d.Counts extra w v)
    (fun c _ hv => (hvisit hv.tally c).mono fun _ => hv.trans) h.counts).mono fun _ hout => hout.1

/-- The workspace in which the members of a group stand for the reserved slot, and its script was
started. -/
def starting (w : Workspace) (number : Nat) (group : Group) (slot : Ref) : Workspace :=
  { w with
    counterparts := group.members.foldl (fun found m => found.insert m.index slot) w.counterparts
    journal := w.journal ++ [.replacing number group.members slot] }

theorem contains_starting {number index : Nat} {group : Group} {slot : Ref} :
    (starting w number group slot).counterparts.contains index = true ↔
      w.counterparts.contains index = true ∨ ∃ m ∈ group.members, m.index = index := by
  have hfold : ∀ (members : List Ref) (found : OrderedMap Nat Ref),
      (members.foldl (fun found m => found.insert m.index slot) found).contains index = true ↔
        found.contains index = true ∨ ∃ m ∈ members, m.index = index := by
    intro members
    induction members with
    | nil => simp
    | cons m rest ih =>
      intro found
      rw [List.foldl_cons, ih, List.exists_mem_cons_iff, ← or_assoc]
      refine or_congr_left ?_
      rw [OrderedMap.contains, OrderedMap.find?_insert, OrderedMap.contains]
      split
      · next heq => simp [heq]
      · next hne => simp [hne]
  exact hfold _ _

theorem forM_setCounterpart_eq {members : List Ref} {slot : Ref} :
    (members.forM fun member => setCounterpart member.index slot : Rebuild Unit) w = .ok ((), { w with
      counterparts :=
        members.foldl (fun found m => found.insert m.index slot) w.counterparts }) := by
  induction members generalizing w with
  | nil => rfl
  | cons m rest ih => exact ih

section Groups

variable {number : Nat} {group : Group} (hgroup : d.plan.groups[number]? = some group)
  (hne : group.members ≠ []) (hapart : d.plan.groups.Pairwise Plan.Apart)

include hgroup hne hapart

/-- **Starting a group** counts it once more: as met if it was not, and as an extra start if it
was. -/
theorem Tally.counts_starting (h : d.Tally extra w) (slot : Ref) :
    d.Counts (Function.update extra number (extra number + (w.met group).toNat)) w
      (starting w number group slot) ∧ (starting w number group slot).met group = true := by
  have hmet : (starting w number group slot).met group = true := by
    obtain ⟨m, hm⟩ := List.exists_mem_of_ne_nil _ hne
    exact Workspace.met_iff.2 ⟨m, hm, contains_starting.2 (.inr ⟨m, hm, rfl⟩)⟩
  -- the other groups have no member in common with this one
  have hother : ∀ {k : Nat} {b : Group}, d.plan.groups[k]? = some b → k ≠ number → ∀ m ∈ b.members,
      (starting w number group slot).counterparts.contains m.index =
        w.counterparts.contains m.index := by
    intro k b hk hkn m hm
    rw [Bool.eq_iff_iff, contains_starting, or_iff_left]
    rintro ⟨m', hm', heq⟩
    exact hkn (Plan.eq_of_mem_members hapart hk hgroup hm hm' heq.symm)
  refine ⟨⟨⟨fun {k b} hk hb m hm => ?_, fun {k b} hk => ?_⟩, fun index hc => ?_⟩, hmet⟩
  · by_cases hkn : k = number
    · subst hkn
      obtain rfl : group = b := Option.some.inj (hgroup.symm.trans hk)
      exact contains_starting.2 (.inr ⟨m, hm, rfl⟩)
    · rw [hother hk hkn m hm]
      exact h.whole hk (Workspace.met_congr (hother hk hkn) ▸ hb) m hm
  · have hjournal : timesStarted k (starting w number group slot).journal =
        timesStarted k w.journal + if number = k then 1 else 0 := by
      rw [starting, timesStarted_append, timesStarted_replacing]
    rw [hjournal, h.started hk]
    by_cases hkn : k = number
    · subst hkn
      obtain rfl : group = b := Option.some.inj (hgroup.symm.trans hk)
      rw [hmet, Function.update_self, if_pos rfl, Bool.toNat_true]
      omega
    · rw [Function.update_of_ne hkn, if_neg (Ne.symm hkn), Workspace.met_congr (hother hk hkn)]
      omega
  · exact contains_starting.2 (.inl hc)

/-- **Replacing a group starts its script once.** If the group was met before, this is an
extra start; in either case it is met from now on. -/
theorem runGroup_counts {visit : Ref → Rebuild Ref} (hvisit : d.VisitCounts visit)
    (h : d.Tally extra w) :
    Ends (d.runGroup visit number group w) (fun _ => True) fun out =>
      d.Counts (Function.update extra number (extra number + (w.met group).toNat)) w out.2 ∧
        out.2.met group = true := by
  rw [runGroup]
  refine ends_bind build_same ?_
  rintro slot w₁ ⟨hcounterparts, hjournal⟩
  have hreserve : d.Counts extra w w₁ := h.counts_of_same hcounterparts fun k => by rw [hjournal]
  obtain ⟨hstart, hmet⟩ := hreserve.tally.counts_starting hgroup hne hapart slot
  have hsame : w₁.met group = w.met group := Workspace.met_congr fun m _ => by rw [hcounterparts]
  rw [hsame] at hstart
  rw [bind_eq forM_setCounterpart_eq, bind_eq (a := ()) (v := starting w₁ number group slot) rfl]
  refine ends_bind (runScript_counts hvisit hstart.tally) fun replacement w₂ h₂ => ?_
  replace hstart := (hreserve.trans hstart).trans h₂
  replace hmet := h₂.met hmet
  refine ends_bind_lift (Ends.of_forall (fun _ => trivial) fun _ => ?_)
  by_cases heq : replacement = slot
  · rw [if_neg (not_not.2 heq)]
    exact ⟨hstart, hmet⟩
  · rw [if_pos heq]
    refine ends_bind (build_counts hstart.tally) fun _ w₃ h₃ => ?_
    exact ⟨hstart.trans h₃, h₃.met hmet⟩

end Groups

/-- **Visits start each group at most once**: a group that a visit starts was not met. The
induction is on the bound of the recursion. -/
theorem visit_counts (hplan : d.plan.fault? d.old.serial = none) (depth : Nat) (path : List Nat) :
    d.VisitCounts (d.visit depth path) := by
  obtain ⟨hne, hapart⟩ := Plan.groups_of_fault? hplan
  induction depth generalizing path with
  | zero => exact fun h r => placeholder_counts h r.index
  | succ depth ih =>
    intro extra w h r
    rw [visit]
    refine ends_bind_lift (Ends.of_forall (fun _ => trivial) fun _ => ?_)
    rw [bind_eq (a := w) (v := w) rfl]
    cases hc : w.counterparts.find? (d.plan.target r).index with
    | some new => exact h.counts
    | none =>
      cases hgroup : d.plan.groupAt? (d.plan.target r).index with
      | some found =>
        obtain ⟨number, group⟩ := found
        obtain ⟨j, rfl, hj, m, hm, hindex⟩ := Plan.exists_of_findGroup? hgroup
        rw [Nat.zero_add]
        -- all members of a group that was met have counterparts, also this one
        have hunmet : w.met group = false := by
          by_contra hmet
          have hcontains := h.whole hj (by simpa using hmet) m hm
          rw [hindex, OrderedMap.contains, hc] at hcontains
          cases hcontains
        have hrun := runGroup_counts hj (hne group (List.mem_of_getElem? hj)) hapart (ih path) h
        rw [hunmet, Bool.toNat_false, Nat.add_zero, Function.update_eq_self] at hrun
        exact hrun.mono fun _ h => h.1
      | none =>
        refine ends_bind_lift (Ends.of_forall (fun _ => trivial) fun node => ?_)
        by_cases hmem : (d.plan.target r).index ∈ path
        · rw [if_pos hmem]
          exact placeholder_counts h _
        · rw [if_neg hmem]
          refine ends_bind (mapChildrenM_counts (ih _) h) fun new w' h' => ?_
          exact (settle_counts h'.tally hgroup).mono fun _ => h'.trans

/-! ### The groups that no root reached -/

/-- Whether group `k` was met already when its turn comes, while the groups of a list are replaced
one after the other. -/
def metAtTurn (d : Derivation) (k : Nat) : List (Group × Nat) → Workspace → Bool
  | [], _ => false
  | (group, number) :: rest, w =>
    if number = k then w.met group
    else
      match d.runGroup d.visitRoot number group w with
      | .error _ => false
      | .ok (_, w') => d.metAtTurn k rest w'

/-- Whether no root reaches group `k`, but the script of a group that is replaced before it leads
to it. -/
def metBeforeTurn (d : Derivation) (k : Nat) : Bool :=
  match d.rebuildRoots d.workspace with
  | .error _ => false
  | .ok (_, w) => d.metAtTurn k (d.pendingGroups w) w

theorem metAtTurn_eq_false {k : Nat} {pending : List (Group × Nat)}
    (h : k ∉ pending.map Prod.snd) : d.metAtTurn k pending w = false := by
  induction pending generalizing w with
  | nil => rfl
  | cons e rest ih =>
    obtain ⟨hne, hrest⟩ := not_or.1 (List.mem_cons.not.1 h)
    rw [metAtTurn, if_neg (Ne.symm hne)]
    split
    · rfl
    · exact ih hrest

theorem mem_pendingGroups {e : Group × Nat} (h : e ∈ d.pendingGroups w) :
    d.plan.groups[e.2]? = some e.1 :=
  List.mem_zipIdx_iff_getElem?.1 (List.mem_filter.1 h).1

theorem nodup_pendingGroups : ((d.pendingGroups w).map Prod.snd).Nodup := by
  have hall : (d.plan.groups.zipIdx.map Prod.snd).Nodup := by
    rw [List.zipIdx_map_snd]
    exact List.nodup_range'
  exact hall.sublist (List.filter_sublist.map Prod.snd)

/-- A group that does not wait for its turn was met. -/
theorem met_of_not_mem_pendingGroups {k : Nat} {group : Group} (hk : d.plan.groups[k]? = some group)
    (hne : group.members ≠ []) (h : k ∉ (d.pendingGroups w).map Prod.snd) :
    w.met group = true := by
  by_contra hmet
  refine h (List.mem_map.2 ⟨(group, k), List.mem_filter.2 ⟨?_, ?_⟩, rfl⟩)
  · exact List.mem_zipIdx_iff_getElem?.2 hk
  · obtain ⟨first, rest, hmembers⟩ := List.exists_cons_of_ne_nil hne
    have hfirst : w.counterparts.contains first.index = false := by
      by_contra hc
      exact hmet (Workspace.met_iff.2 ⟨first, by simp [hmembers], by simpa using hc⟩)
    simp [hmembers, hfirst]

section Plan

variable (hplan : d.plan.fault? d.old.serial = none)

include hplan

/-- **Each group of a list is started once more when its turn comes**, whether or not it was met
before. The induction is on the list. -/
theorem pending_counts {pending : List (Group × Nat)}
    (hpending : ∀ e ∈ pending, d.plan.groups[e.2]? = some e.1)
    (hnodup : (pending.map Prod.snd).Nodup) (h : d.Tally extra w) :
    Ends ((pending.forM fun (group, number) => (do
        let _ ← d.runGroup d.visitRoot number group : Rebuild Unit)) w) (fun _ => True) fun out =>
      d.Counts (fun k => extra k + (d.metAtTurn k pending w).toNat) w out.2 ∧
        ∀ e ∈ pending, out.2.met e.1 = true := by
  obtain ⟨hne, hapart⟩ := Plan.groups_of_fault? hplan
  induction pending generalizing extra w with
  | nil => exact ⟨h.counts, by simp⟩
  | cons e rest ih =>
    obtain ⟨group, number⟩ := e
    obtain ⟨hgroup, hrest⟩ := List.forall_mem_cons.1 hpending
    obtain ⟨hnumber, hnodup⟩ := List.nodup_cons.1 hnodup
    have hrun := runGroup_counts hgroup (hne group (List.mem_of_getElem? hgroup)) hapart
      (visit_counts hplan _ _ : d.VisitCounts d.visitRoot) h
    have hone : Ends ((do let _ ← d.runGroup d.visitRoot number group : Rebuild Unit) w)
        (fun _ => True) fun out => (∃ slot, d.runGroup d.visitRoot number group w = .ok (slot, out.2)) ∧
          d.Counts (Function.update extra number (extra number + (w.met group).toNat)) w out.2 ∧
            out.2.met group = true := by
      refine ends_bind hrun.with_eq ?_
      rintro slot w₁ ⟨heq, h₁⟩
      exact ⟨⟨slot, heq⟩, h₁⟩
    refine ends_bind hone ?_
    rintro _ w₁ ⟨⟨slot, heq⟩, h₁, hmet⟩
    -- a group waits for its turn only once, so its own start counts for none of the others
    have hextra : ∀ k, Function.update extra number (extra number + (w.met group).toNat) k +
        (d.metAtTurn k rest w₁).toNat =
          extra k + (d.metAtTurn k ((group, number) :: rest) w).toNat := by
      intro k
      by_cases hk : number = k
      · subst hk
        rw [Function.update_self, metAtTurn_eq_false hnumber, metAtTurn, if_pos rfl,
          Bool.toNat_false, Nat.add_zero]
      · rw [Function.update_of_ne (Ne.symm hk), metAtTurn, if_neg hk, heq]
    have hlater := ih hrest hnodup h₁.tally
    simp only [hextra] at hlater
    refine hlater.mono ?_
    rintro out ⟨h₂, hmet₂⟩
    exact ⟨h₁.trans h₂, List.forall_mem_cons.2 ⟨h₂.met hmet, hmet₂⟩⟩

theorem rebuildRoots_counts (h : d.Tally extra w) :
    Ends (d.rebuildRoots w) (fun _ => True) fun out => d.Counts extra w out.2 := by
  rw [rebuildRoots_eq]
  induction d.old.roots.entries generalizing w with
  | nil => exact h.counts
  | cons e rest ih =>
    have hroot : d.VisitCounts d.visitRoot := visit_counts hplan _ _
    have hone : Ends (d.rebuildRoot e w) (fun _ => True) fun out => d.Counts extra w out.2 := by
      refine ends_bind (hroot h e.2) fun new w₁ h₁ => ?_
      refine ends_bind (build_counts h₁.tally) fun _ w₂ h₂ => ?_
      exact (build_counts h₂.tally).mono fun _ h₃ => (h₁.trans h₂).trans h₃
    exact ends_bind hone fun _ w₁ h₁ => (ih h₁.tally).mono fun _ => h₁.trans

end Plan

theorem tally_workspace : d.Tally (fun _ => 0) d.workspace := by
  have hmet : ∀ group, d.workspace.met group = false := fun group => by
    rw [Workspace.met, List.any_eq_false]
    exact fun _ _ h => Bool.false_ne_true h
  exact ⟨fun _ h => by simp [hmet] at h, fun _ => by rw [hmet]; rfl⟩

/-- **How often a rebuilding starts the script of a group**: once, and once more if no root
reaches the group but the script of a group that is replaced before it does. -/
theorem run_timesStarted {k : Nat} {group : Group} (h : d.run = .ok w)
    (hk : d.plan.groups[k]? = some group) :
    timesStarted k w.journal = 1 + (d.metBeforeTurn k).toNat := by
  rw [run] at h
  cases hplan : d.plan.fault? d.old.serial with
  | some f =>
    rw [hplan] at h
    cases h
  | none =>
    rw [hplan] at h
    have hne := (Plan.groups_of_fault? hplan).1 group (List.mem_of_getElem? hk)
    have hall : Ends (d.rebuildAll d.workspace) (fun _ => True) fun out =>
        timesStarted k out.2.journal = 1 + (d.metBeforeTurn k).toNat := by
      refine ends_bind (rebuildRoots_counts hplan tally_workspace).with_eq ?_
      rintro _ w₁ ⟨hroots, h₁⟩
      rw [bind_eq (a := w₁) (v := w₁) rfl]
      refine ends_bind (pending_counts hplan (fun e => mem_pendingGroups) nodup_pendingGroups
        h₁.tally) ?_
      rintro _ w₂ ⟨h₂, hpending⟩
      -- in the end every group was met: from a root, or at the latest in its turn
      have hmet : w₂.met group = true := by
        by_cases hmem : k ∈ (d.pendingGroups w₁).map Prod.snd
        · obtain ⟨e, he, rfl⟩ := List.mem_map.1 hmem
          obtain rfl : e.1 = group := Option.some.inj ((mem_pendingGroups he).symm.trans hk)
          exact hpending e he
        · exact h₂.met (met_of_not_mem_pendingGroups hk hne hmem)
      have hturn : d.metBeforeTurn k = d.metAtTurn k (d.pendingGroups w₁) w₁ := by
        rw [metBeforeTurn, hroots]
      have hstarted := h₂.tally.started hk
      rw [hmet, Bool.toNat_true, Nat.zero_add, ← hturn] at hstarted
      rw [bind_eq (a := w₂) (v := w₂) rfl]
      cases w₂.placeholders.isEmpty with
      | true => exact hstarted
      | false => trivial
    have hrun : Ends (d.rebuildAll.run d.workspace >>= fun out => pure out.2) (fun _ => True)
        fun w => timesStarted k w.journal = 1 + (d.metBeforeTurn k).toNat :=
      hall.bind fun _ hout => hout
    exact hrun.of_eq_ok h

/-- **A group that a root reaches is replaced exactly once.** -/
theorem run_timesStarted_of_met {w₁ : Workspace} {k : Nat} {group : Group} (h : d.run = .ok w)
    (hk : d.plan.groups[k]? = some group) (hroots : d.rebuildRoots d.workspace = .ok ((), w₁))
    (hmet : w₁.met group = true) : timesStarted k w.journal = 1 := by
  have hplan : d.plan.fault? d.old.serial = none := by
    by_contra hfault
    obtain ⟨f, hf⟩ := Option.ne_none_iff_exists'.1 hfault
    rw [run, hf] at h
    cases h
  have htally := ((rebuildRoots_counts hplan tally_workspace).of_eq_ok hroots).tally
  -- all of its members have counterparts, so it does not wait for a turn
  have hwaits : k ∉ (d.pendingGroups w₁).map Prod.snd := by
    intro hmem
    obtain ⟨⟨group', k'⟩, he, rfl⟩ := List.mem_map.1 hmem
    obtain rfl : group' = group := Option.some.inj ((mem_pendingGroups he).symm.trans hk)
    obtain ⟨first, hfirst, hnot⟩ := (Option.any_eq_true _ _).1 (List.mem_filter.1 he).2
    have hcontains := htally.whole hk hmet first (List.mem_of_mem_head? hfirst)
    simp [hcontains] at hnot
  rw [run_timesStarted h hk, metBeforeTurn, hroots]
  dsimp only
  rw [metAtTurn_eq_false hwaits]
  rfl

end Derivation

end SchemaGraph
