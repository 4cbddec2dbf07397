import Mathlib.Data.List.Nodup
import Mathlib.Logic.Relation
import SchemaGraph.Digraph.Forest

/-!
# What a search finds

The course of a depth-first search, told as a relation (`SchemaGraph.Explored`): candidates that
were seen before are passed over, and the others are entered, searched below, and left. That
the bound on the recursion is never felt is `SchemaGraph.explored_grow`; after it, statements about
searches are inductions on their course.

A search finds exactly what its candidates lead to among the nodes that it has not seen
(`SchemaGraph.Explored.finds`). And whatever a node leads to is left no later than some
node that leads back to it (`SchemaGraph.Explored.exists_left_after`): the first node of a cycle to be
entered is the last to be left, and what the cycle leads to is left by then. This is what makes
orders of leaving useful on graphs with cycles, where a node need not be left after its successors:
it is left after those that do not lead back to it (`SchemaGraph.Explored.leadsWithin_or_noLater`).

The course of a search is determined by what its candidates lead to, in which order, and how often
does not matter (`SchemaGraph.Explored.unique`, `SchemaGraph.Explored.transfer`,
`SchemaGraph.Explored.eraseDups`).
-/

namespace SchemaGraph

variable {α : Type}

/-! ### Leading from one node to another -/

/-- The one node leads to the other, by edges that end in listed nodes. -/
def LeadsWithin (next : α → List α) (nodes : List α) : α → α → Prop :=
  Relation.ReflTransGen fun v w => w ∈ next v ∧ w ∈ nodes

/-- Two nodes lead to each other, by edges that end in listed nodes. -/
def EntwinedWithin (next : α → List α) (nodes : List α) (v w : α) : Prop :=
  LeadsWithin next nodes v w ∧ LeadsWithin next nodes w v

section Leading

variable {next : α → List α} {nodes nodes' : List α} {v w x y : α}

theorem LeadsWithin.mono (h : LeadsWithin next nodes v w) (hsub : nodes ⊆ nodes') :
    LeadsWithin next nodes' v w :=
  Relation.ReflTransGen.mono (fun _ _ hstep => ⟨hstep.1, hsub hstep.2⟩) v w h

theorem EntwinedWithin.mono (h : EntwinedWithin next nodes v w) (hsub : nodes ⊆ nodes') :
    EntwinedWithin next nodes' v w :=
  ⟨h.1.mono hsub, h.2.mono hsub⟩

theorem EntwinedWithin.symm (h : EntwinedWithin next nodes v w) : EntwinedWithin next nodes w v :=
  ⟨h.2, h.1⟩

theorem EntwinedWithin.trans (h : EntwinedWithin next nodes v w)
    (h' : EntwinedWithin next nodes w x) : EntwinedWithin next nodes v x :=
  ⟨h.1.trans h'.1, h'.2.trans h.2⟩

theorem LeadsWithin.mem (h : LeadsWithin next nodes v w) (hv : v ∈ nodes) : w ∈ nodes := by
  cases h with
  | refl => exact hv
  | tail _ hstep => exact hstep.2

variable [DecidableEq α]

/-- A node that leads somewhere else does so through a successor, and needs not come back. -/
theorem leadsWithin_iff :
    LeadsWithin next nodes v x ↔
      x = v ∨ ∃ c ∈ next v, c ∈ nodes.erase v ∧ LeadsWithin next (nodes.erase v) c x := by
  constructor
  · intro h
    induction h with
    | refl => exact .inl rfl
    | @tail y z _ hstep ih =>
      by_cases hz : z = v
      · exact .inl hz
      · have hz' : z ∈ nodes.erase v := (List.mem_erase_of_ne hz).2 hstep.2
        rcases ih with rfl | ⟨c, hc, hmem, hleads⟩
        · exact .inr ⟨z, hstep.1, hz', .refl⟩
        · exact .inr ⟨c, hc, hmem, hleads.tail ⟨hstep.1, hz'⟩⟩
  · rintro (rfl | ⟨c, hc, hmem, hleads⟩)
    · exact .refl
    · have hsub : nodes.erase v ⊆ nodes := List.erase_subset
      exact .head ⟨hc, hsub hmem⟩ (hleads.mono hsub)

/-- A node that does not lead to `v` gets along without it. -/
theorem LeadsWithin.erase (h : LeadsWithin next nodes x y) (hnot : ¬LeadsWithin next nodes x v) :
    LeadsWithin next (nodes.erase v) x y := by
  induction h with
  | refl => exact .refl
  | @tail y z hxy hstep ih =>
    have hz : z ≠ v := fun heq => hnot (heq ▸ hxy.tail hstep)
    exact ih.tail ⟨hstep.1, (List.mem_erase_of_ne hz).2 hstep.2⟩

end Leading

/-! ### Orders -/

/-- The one is no later in the list than the other. -/
def NoLater (order : List α) (v w : α) : Prop := v = w ∨ [v, w].Sublist order

theorem NoLater.append_right {order : List α} {v w : α} (h : NoLater order v w) (rest : List α) :
    NoLater (order ++ rest) v w :=
  h.imp_right fun hsub => hsub.trans (List.sublist_append_left _ _)

theorem NoLater.append_left {order : List α} {v w : α} (h : NoLater order v w) (earlier : List α) :
    NoLater (earlier ++ order) v w :=
  h.imp_right fun hsub => hsub.trans (List.sublist_append_right _ _)

theorem noLater_append {order rest : List α} {v w : α} (hv : v ∈ order) (hw : w ∈ rest) :
    NoLater (order ++ rest) v w :=
  .inr ((List.singleton_sublist.2 hv).append (List.singleton_sublist.2 hw))

/-! ### The two readings of a forest -/

mutual

theorem Tree.perm_postorder : (tree : Tree α) → tree.postorder.Perm tree.preorder
  | .node root branches => by
    rw [Tree.postorder, Tree.preorder]
    exact (List.perm_append_singleton root _).trans ((perm_postorderAll branches).cons root)

/-- **Both readings of a forest list the same nodes.** -/
theorem perm_postorderAll : (forest : List (Tree α)) →
    (postorderAll forest).Perm (preorderAll forest)
  | [] => .refl _
  | tree :: rest => by
    rw [postorderAll, preorderAll]
    exact tree.perm_postorder.append (perm_postorderAll rest)

end

/-! ### One node is entered -/

section Entering

variable {next : α → List α} {unseen between : List α} {branches : List (Tree α)} {v x y : α}

/-- What is found from a node that is entered, and what is unseen after it is left. -/
structure Entered (next : α → List α) (unseen between : List α) (branches : List (Tree α)) (v : α) :
    Prop where
  mem_iff : ∀ {x}, x ∈ postorderAll branches ++ [v] ↔ LeadsWithin next unseen v x
  between_iff : ∀ {x}, x ∈ between ↔ x ∈ unseen ∧ x ∉ postorderAll branches ++ [v]

variable (h : Entered next unseen between branches v)

include h

theorem Entered.closed (hx : x ∈ postorderAll branches ++ [v]) (hxy : LeadsWithin next unseen x y) :
    y ∈ postorderAll branches ++ [v] :=
  h.mem_iff.2 ((h.mem_iff.1 hx).trans hxy)

/-- What leads to something that was not found from there leads to it among what is unseen. -/
theorem Entered.leadsWithin_between (hxy : LeadsWithin next unseen x y)
    (hy : y ∉ postorderAll branches ++ [v]) : LeadsWithin next between x y := by
  induction hxy with
  | refl => exact .refl
  | @tail y z _ hstep ih =>
    have hy' : y ∉ postorderAll branches ++ [v] := fun hmem => hy (h.closed hmem (.single hstep))
    exact (ih hy').tail ⟨hstep.1, h.between_iff.2 ⟨hstep.2, hy⟩⟩

end Entering

/-! ### The course of a search -/

variable [DecidableEq α]

/-- From the unseen nodes and the candidates of the first lists, a search grows the forest and leaves
the nodes of the last list unseen. -/
inductive Explored (next : α → List α) : List α → List α → List (Tree α) → List α → Prop
  /-- There are no more candidates. -/
  | nil {unseen : List α} : Explored next unseen [] [] unseen
  /-- The next candidate was seen before. -/
  | seen {unseen candidates rest : List α} {forest : List (Tree α)} {v : α} (hv : v ∉ unseen)
      (hrest : Explored next unseen candidates forest rest) :
      Explored next unseen (v :: candidates) forest rest
  /-- The next candidate is entered, searched below, and left. -/
  | enter {unseen between candidates rest : List α} {branches forest : List (Tree α)} {v : α}
      (hv : v ∈ unseen) (hbelow : Explored next (unseen.erase v) (next v) branches between)
      (hrest : Explored next between candidates forest rest) :
      Explored next unseen (v :: candidates) (.node v branches :: forest) rest

section Growing

variable {next : α → List α} {below : List α → α → List (Tree α) × List α} {bound : Nat}
  {unseen candidates rest : List α} {forest : List (Tree α)}

/-- No more nodes are unseen afterwards. -/
theorem Explored.sublist (h : Explored next unseen candidates forest rest) :
    rest.Sublist unseen := by
  induction h with
  | nil => exact .refl _
  | seen _ _ ih => exact ih
  | enter _ _ _ ih ih' => exact ih'.trans (ih.trans (List.erase_sublist))

/-- Trees are grown from candidates as the search goes, if branches are. -/
theorem explored_growEach
    (hbelow : ∀ (unseen : List α) (v : α), unseen.length < bound →
      Explored next unseen (next v) (below unseen v).1 (below unseen v).2)
    (candidates : List α) (hbound : unseen.length ≤ bound) :
    Explored next unseen candidates (growEach below unseen candidates).1
      (growEach below unseen candidates).2 := by
  induction candidates generalizing unseen with
  | nil => exact .nil
  | cons v candidates ih =>
    rw [growEach]
    split
    · next hv =>
      have hlength := List.length_erase_of_mem hv
      have hpos := List.length_pos_of_mem hv
      have hhere := hbelow (unseen.erase v) v (by omega)
      have hle := hhere.sublist.length_le
      exact .enter hv hhere (ih (by omega))
    · next hv => exact .seen hv (ih hbound)

/-- **A search goes on until nothing is left to find**: with as much depth as there are unseen nodes,
the bound is never felt. -/
theorem explored_grow {depth : Nat} (candidates : List α) (hdepth : unseen.length ≤ depth) :
    Explored next unseen candidates (grow next depth unseen candidates).1
      (grow next depth unseen candidates).2 := by
  induction depth generalizing unseen candidates with
  | zero =>
    obtain rfl := List.eq_nil_of_length_eq_zero (Nat.le_zero.1 hdepth)
    rw [grow]
    induction candidates with
    | nil => exact .nil
    | cons v candidates ih => exact .seen (List.not_mem_nil) ih
  | succ depth ih =>
    rw [grow]
    exact explored_growEach (fun unseen v hlt => ih (next v) (Nat.le_of_lt_succ hlt)) candidates hdepth

end Growing

/-! ### What is found -/

namespace Explored

variable {next : α → List α} {unseen candidates rest : List α} {forest : List (Tree α)} {v w : α}

/-- What a search finds and what it leaves unseen. -/
structure Finds (next : α → List α) (unseen candidates : List α) (forest : List (Tree α))
    (rest : List α) : Prop where
  mem_iff : ∀ {x}, x ∈ postorderAll forest ↔
    ∃ c ∈ candidates, c ∈ unseen ∧ LeadsWithin next unseen c x
  rest_iff : ∀ {x}, x ∈ rest ↔ x ∈ unseen ∧ x ∉ postorderAll forest
  nodup : (postorderAll forest).Nodup

theorem Finds.entered {between : List α} {branches : List (Tree α)}
    (h : Finds next (unseen.erase v) (next v) branches between) (hnd : unseen.Nodup) :
    Entered next unseen between branches v where
  mem_iff {x} := by
    rw [leadsWithin_iff, List.mem_append, List.mem_singleton, h.mem_iff, or_comm]
  between_iff {x} := by
    rw [h.rest_iff, hnd.mem_erase_iff, List.mem_append, List.mem_singleton]
    tauto

/-- **A search finds exactly what its candidates lead to** among the unseen nodes, and each such node
once. The induction is on the course of the search: what is found from one candidate is closed, so
the others can do without it. -/
theorem finds (h : Explored next unseen candidates forest rest) (hnd : unseen.Nodup) :
    Finds next unseen candidates forest rest := by
  induction h with
  | nil => exact ⟨by simp [postorderAll], by simp [postorderAll], by simp [postorderAll]⟩
  | @seen unseen candidates rest forest v hv _ ih =>
    have hrest := ih hnd
    refine ⟨fun {x} => hrest.mem_iff.trans ?_, hrest.rest_iff, hrest.nodup⟩
    refine ⟨fun ⟨c, hc, hfound⟩ => ⟨c, List.mem_cons_of_mem _ hc, hfound⟩, fun ⟨c, hc, hmem, hx⟩ => ?_⟩
    rcases List.mem_cons.1 hc with rfl | hc
    · exact absurd hmem hv
    · exact ⟨c, hc, hmem, hx⟩
  | @enter unseen between candidates rest branches forest v hv hbelow hrest ih ih' =>
    have hbranches := ih (hnd.erase v)
    have hforest := ih' ((hnd.erase v).sublist hbelow.sublist)
    have hentered := hbranches.entered hnd
    have hsub : between ⊆ unseen := fun x hx => (hentered.between_iff.1 hx).1
    have hdisjoint : ∀ x ∈ postorderAll forest, x ∉ postorderAll branches ++ [v] := by
      intro x hx
      obtain ⟨c, -, hc, hcx⟩ := hforest.mem_iff.1 hx
      exact (hentered.between_iff.1 (hcx.mem hc)).2
    have hpost : postorderAll (.node v branches :: forest) =
        (postorderAll branches ++ [v]) ++ postorderAll forest := by
      rw [postorderAll, Tree.postorder]
    refine ⟨fun {x} => ?_, fun {x} => ?_, ?_⟩
    · rw [hpost, List.mem_append]
      constructor
      · rintro (hx | hx)
        · exact ⟨v, by simp, hv, hentered.mem_iff.1 hx⟩
        · obtain ⟨c, hc, hmem, hcx⟩ := hforest.mem_iff.1 hx
          exact ⟨c, List.mem_cons_of_mem _ hc, hsub hmem, hcx.mono hsub⟩
      · rintro ⟨c, hc, hmem, hcx⟩
        refine or_iff_not_imp_left.2 fun hx => ?_
        rcases List.mem_cons.1 hc with rfl | hc
        · exact absurd (hentered.mem_iff.2 hcx) hx
        · have hc' : c ∉ postorderAll branches ++ [v] := fun h => hx (hentered.closed h hcx)
          exact hforest.mem_iff.2 ⟨c, hc, hentered.between_iff.2 ⟨hmem, hc'⟩,
            hentered.leadsWithin_between hcx hx⟩
    · rw [hforest.rest_iff, hentered.between_iff, hpost, List.mem_append (t := postorderAll forest)]
      tauto
    · rw [hpost]
      refine ((hbranches.nodup.append (List.nodup_singleton v) ?_)).append hforest.nodup ?_
      · refine List.disjoint_singleton.2 fun hmem => ?_
        obtain ⟨c, -, hc, hcx⟩ := hbranches.mem_iff.1 hmem
        exact hnd.not_mem_erase (hcx.mem hc)
      · exact fun x hx hx' => hdisjoint x hx' hx

/-- **What a node leads to is left no later than some node that leads back to it.** A node below the
one that is entered either leads back to it, which is left last, or gets along without it. -/
theorem exists_left_after (h : Explored next unseen candidates forest rest) (hnd : unseen.Nodup)
    (hv : v ∈ postorderAll forest) (hvw : LeadsWithin next unseen v w) :
    ∃ u, EntwinedWithin next unseen v u ∧ NoLater (postorderAll forest) w u := by
  induction h generalizing v w with
  | nil => simp [postorderAll] at hv
  | seen _ _ ih => exact ih hnd hv hvw
  | @enter unseen between candidates rest branches forest c hc hbelow hrest ih ih' =>
    have hnd' := (hnd.erase c).sublist hbelow.sublist
    have hentered := (hbelow.finds (hnd.erase c)).entered hnd
    have hforest := hrest.finds hnd'
    have hsub : between ⊆ unseen := fun x hx => (hentered.between_iff.1 hx).1
    rw [postorderAll, Tree.postorder] at hv ⊢
    by_cases hhere : v ∈ postorderAll branches ++ [c]
    · have hw := hentered.closed hhere hvw
      by_cases hback : LeadsWithin next unseen v c
      · refine ⟨c, ⟨hback, hentered.mem_iff.1 hhere⟩, .append_right ?_ _⟩
        rcases List.mem_append.1 hw with hw | hw
        · exact noLater_append hw (List.mem_singleton_self c)
        · exact .inl (List.mem_singleton.1 hw)
      · have hv' : v ∈ postorderAll branches := by
          rcases List.mem_append.1 hhere with hv | hv
          · exact hv
          · exact absurd (List.mem_singleton.1 hv ▸ .refl) hback
        obtain ⟨u, hu, hafter⟩ := ih (hnd.erase c) hv' (hvw.erase hback)
        exact ⟨u, hu.mono List.erase_subset, (hafter.append_right _).append_right _⟩
    · have hv' : v ∈ postorderAll forest := (List.mem_append.1 hv).resolve_left hhere
      by_cases hw : w ∈ postorderAll branches ++ [c]
      · exact ⟨v, ⟨.refl, .refl⟩, noLater_append hw hv'⟩
      · obtain ⟨u, hu, hafter⟩ := ih' hnd' hv' (hentered.leadsWithin_between hvw hw)
        exact ⟨u, hu.mono hsub, hafter.append_left _⟩

/-- **The start of an edge is left after its end**, unless the end leads back to it. If the end was
seen when the start was entered, it has been left by then, or the search is still below it. -/
theorem leadsWithin_or_noLater (h : Explored next unseen candidates forest rest) (hnd : unseen.Nodup)
    (hv : v ∈ postorderAll forest) (hvw : w ∈ next v) (hw : w ∈ unseen) :
    LeadsWithin next unseen w v ∨ NoLater (postorderAll forest) w v := by
  induction h generalizing v w with
  | nil => simp [postorderAll] at hv
  | seen _ _ ih => exact ih hnd hv hvw hw
  | @enter unseen between candidates rest branches forest c hc hbelow hrest ih ih' =>
    have hnd' := (hnd.erase c).sublist hbelow.sublist
    have hbranches := hbelow.finds (hnd.erase c)
    have hentered := hbranches.entered hnd
    have hsub : between ⊆ unseen := fun x hx => (hentered.between_iff.1 hx).1
    rw [postorderAll, Tree.postorder] at hv ⊢
    rcases List.mem_append.1 hv with hhere | hv
    · by_cases hwc : w = c
      · -- the search is below `c` when it enters `v`
        exact .inl (hwc ▸ hentered.mem_iff.1 hhere)
      · have hw' : w ∈ unseen.erase c := (List.mem_erase_of_ne hwc).2 hw
        rcases List.mem_append.1 hhere with hv | hv
        · rcases ih (hnd.erase c) hv hvw hw' with hback | hbefore
          · exact .inl (hback.mono List.erase_subset)
          · exact .inr ((hbefore.append_right _).append_right _)
        · obtain rfl := List.mem_singleton.1 hv
          have hfound := hbranches.mem_iff.2 ⟨w, hvw, hw', .refl⟩
          exact .inr ((noLater_append hfound hv).append_right _)
    · by_cases hwb : w ∈ between
      · rcases ih' hnd' hv hvw hwb with hback | hbefore
        · exact .inl (hback.mono hsub)
        · exact .inr (hbefore.append_left _)
      · have hw' : w ∈ postorderAll branches ++ [c] := by
          by_contra hnot
          exact hwb (hentered.between_iff.2 ⟨hw, hnot⟩)
        exact .inr (noLater_append hw' hv)

/-! ### Searches that take the same course -/

/-- There is only one course that a search can take. -/
theorem unique {forest' : List (Tree α)} {rest' : List α}
    (h : Explored next unseen candidates forest rest)
    (h' : Explored next unseen candidates forest' rest') : forest = forest' ∧ rest = rest' := by
  induction h generalizing forest' rest' with
  | nil =>
    cases h'
    exact ⟨rfl, rfl⟩
  | seen hv _ ih =>
    cases h' with
    | seen _ hrest' => exact ih hrest'
    | enter hv' => exact absurd hv' hv
  | enter hv _ _ ih ih' =>
    cases h' with
    | seen hv' => exact absurd hv hv'
    | enter _ hbelow' hrest' =>
      obtain ⟨rfl, rfl⟩ := ih hbelow'
      obtain ⟨rfl, rfl⟩ := ih' hrest'
      exact ⟨rfl, rfl⟩

/-- **Repeated successors make no difference**, since a candidate was seen when it comes again. The
candidates in `gone` were seen before. -/
theorem eraseDups (h : Explored next unseen candidates forest rest) (hnd : unseen.Nodup)
    (gone : List α) (hgone : ∀ v ∈ gone, v ∉ unseen) :
    Explored (fun v => (next v).eraseDups) unseen (candidates.filter (· ∉ gone)).eraseDups forest
      rest := by
  -- the first copy of a candidate that is not gone, and what is left of the others without it
  have hcons : ∀ {v : α} {gone candidates : List α}, v ∉ gone →
      ((v :: candidates).filter (· ∉ gone)).eraseDups =
        v :: (candidates.filter (· ∉ v :: gone)).eraseDups := by
    intro v gone candidates hv
    rw [List.filter_cons_of_pos (by simpa using hv), List.eraseDups_cons, List.filter_filter]
    refine congrArg (fun l => v :: List.eraseDups l) (List.filter_congr fun w _ => ?_)
    by_cases hwv : w = v <;> simp [hwv]
  induction h generalizing gone with
  | nil => exact .nil
  | @seen unseen candidates rest forest v hv _ ih =>
    by_cases hvg : v ∈ gone
    · rw [List.filter_cons_of_neg (by simpa using hvg)]
      exact ih hnd gone hgone
    · rw [hcons hvg]
      exact .seen hv (ih hnd (v :: gone) (List.forall_mem_cons.2 ⟨hv, hgone⟩))
  | @enter unseen between candidates rest branches forest v hv hbelow hrest ih ih' =>
    have hvg : v ∉ gone := fun hmem => hgone v hmem hv
    have hbranches := ih (hnd.erase v) [] nofun
    have hsub : between ⊆ unseen.erase v := hbelow.sublist.subset
    rw [List.filter_eq_self.2 (by simp)] at hbranches
    rw [hcons hvg]
    refine .enter hv hbranches (ih' ((hnd.erase v).sublist hbelow.sublist) (v :: gone) ?_)
    exact List.forall_mem_cons.2 ⟨fun hmem => hnd.not_mem_erase (hsub hmem),
      fun w hw hmem => hgone w hw (List.erase_subset (hsub hmem))⟩

/-- **Only what the candidates lead to matters** to a search: nodes that are not kept can be unseen or
not, and can have any successors. -/
theorem transfer {next' : α → List α} {unseen' : List α} {kept : α → Prop}
    (h : Explored next unseen candidates forest rest) (hnd : unseen.Nodup) (hnd' : unseen'.Nodup)
    (hnext : ∀ v, kept v → next' v = next v) (hclosed : ∀ v, kept v → ∀ w ∈ next v, kept w)
    (hcandidates : ∀ v ∈ candidates, kept v) (hsame : ∀ v, kept v → (v ∈ unseen' ↔ v ∈ unseen)) :
    ∃ rest', Explored next' unseen' candidates forest rest' ∧
      ∀ v, kept v → (v ∈ rest' ↔ v ∈ rest) := by
  induction h generalizing unseen' with
  | nil => exact ⟨unseen', .nil, hsame⟩
  | seen hv _ ih =>
    obtain ⟨hkept, hcandidates⟩ := List.forall_mem_cons.1 hcandidates
    obtain ⟨rest', hrest', hsame'⟩ := ih hnd hnd' hcandidates hsame
    exact ⟨rest', .seen (fun hmem => hv ((hsame _ hkept).1 hmem)) hrest', hsame'⟩
  | @enter unseen between candidates rest branches forest v hv hbelow hrest ih ih' =>
    obtain ⟨hkept, hcandidates⟩ := List.forall_mem_cons.1 hcandidates
    have herase : ∀ w, kept w → (w ∈ unseen'.erase v ↔ w ∈ unseen.erase v) := fun w hw => by
      rw [hnd'.mem_erase_iff, hnd.mem_erase_iff, hsame w hw]
    obtain ⟨between', hbelow', hsame'⟩ :=
      ih (hnd.erase v) (hnd'.erase v) (hclosed v hkept) herase
    obtain ⟨rest', hrest', hsame''⟩ := ih' ((hnd.erase v).sublist hbelow.sublist)
      ((hnd'.erase v).sublist hbelow'.sublist) hcandidates hsame'
    rw [← hnext v hkept] at hbelow'
    exact ⟨rest', .enter ((hsame v hkept).2 hv) hbelow' hrest', hsame''⟩

end Explored

end SchemaGraph
