import Mathlib.Data.List.Basic
import Mathlib.Logic.Relation

/-!
# Depth-first search

A search of numbered nodes that goes down to the children of a node before it is done with it
(`SchemaGraph.Search.visit`), and notes two things: in which order it is done with nodes, and which
of them it met again while it was still below them. These nodes lie on cycles
(`SchemaGraph.Search.transGen_of_mem_reentered`), and so nothing is met again in a graph without any.

The bound on the recursion is that of the rebuildings which such a search describes. Where it is
reached nothing more is done.
-/

namespace SchemaGraph

/-- How far a depth-first search has come. -/
structure Search where
  /-- The nodes that are done, in the order in which the search was done with them. -/
  done : List Nat
  /-- The nodes that were met again from below. -/
  reentered : List Nat

namespace Search

/-- Nothing has been met yet. -/
def start : Search := ⟨[], []⟩

/-- A node is met again from below. -/
def reenter (s : Search) (index : Nat) : Search := { s with reentered := index :: s.reentered }

/-- The search is done with a node. -/
def leave (s : Search) (index : Nat) : Search := { s with done := s.done ++ [index] }

/-- Search a node and what is below it. `path` holds the nodes that the search is below of. -/
def visit (children : Nat → List Nat) :
    (depth : Nat) → (path : List Nat) → (index : Nat) → Search → Search
  | 0, _, _, s => s
  | depth + 1, path, index, s =>
    if index ∈ s.done then s
    else if index ∈ path then s.reenter index
    else
      ((children index).foldl (fun s c => visit children depth (index :: path) c s) s).leave index

/-- The search was done with `i` before it was with `j`. -/
def Before (s : Search) (i j : Nat) : Prop := s.done.idxOf i < s.done.idxOf j

variable {s : Search} {children : Nat → List Nat} {depth i j k index : Nat} {path : List Nat}

/-! ### The order of nodes -/

theorem Before.mem (h : s.Before i j) : i ∈ s.done :=
  List.idxOf_lt_length_iff.1 (Nat.lt_of_lt_of_le h List.idxOf_le_length)

theorem before_or_before (hi : i ∈ s.done) (hne : i ≠ j) : s.Before i j ∨ s.Before j i := by
  rcases Nat.lt_trichotomy (s.done.idxOf i) (s.done.idxOf j) with h | h | h
  · exact .inl h
  · exact absurd (List.idxOf_inj hi |>.1 h) hne
  · exact .inr h

/-- The order of nodes that are done does not change. -/
theorem before_leave_iff_of_mem (hj : j ∈ s.done) : (s.leave k).Before i j ↔ s.Before i j := by
  rw [Before, Before, leave, List.idxOf_append_of_mem hj]
  by_cases hi : i ∈ s.done
  · rw [List.idxOf_append_of_mem hi]
  · have hlt := List.idxOf_lt_length_of_mem hj
    rw [List.idxOf_append_of_notMem hi, List.idxOf_eq_length hi]
    omega

/-- A node comes after all that were done before it. -/
theorem before_leave_self_iff (hk : k ∉ s.done) : (s.leave k).Before i k ↔ i ∈ s.done := by
  rw [Before, leave, List.idxOf_append_of_notMem hk]
  by_cases hi : i ∈ s.done
  · have hlt := List.idxOf_lt_length_of_mem hi
    rw [List.idxOf_append_of_mem hi]
    exact iff_of_true (by omega) hi
  · rw [List.idxOf_append_of_notMem hi]
    refine iff_of_false ?_ hi
    by_cases hik : i = k <;> simp [hik]

/-! ### Nodes that are met again -/

/-- Going through a list of nodes keeps what each visit keeps. -/
theorem foldl_visit (kept : Search → Prop) {cs : List Nat}
    (hstep : ∀ s, kept s → ∀ c ∈ cs, kept (visit children depth path c s)) (hs : kept s) :
    kept (cs.foldl (fun s c => visit children depth path c s) s) := by
  induction cs generalizing s with
  | nil => exact hs
  | cons c rest ih =>
    exact ih (fun s hs d hd => hstep s hs d (by simp [hd])) (hstep s hs c (by simp))

/-- **A node that is met again is on a cycle**, if the nodes on the path lead to the one that is
visited. -/
theorem transGen_of_mem_reentered
    (hpath : ∀ p ∈ path, Relation.TransGen (fun i j => j ∈ children i) p index)
    (hs : ∀ k ∈ s.reentered, Relation.TransGen (fun i j => j ∈ children i) k k) :
    ∀ k ∈ (visit children depth path index s).reentered,
      Relation.TransGen (fun i j => j ∈ children i) k k := by
  induction depth generalizing path index s with
  | zero => exact hs
  | succ depth ih =>
    rw [visit]
    split
    · exact hs
    · split
      · next hmem =>
        exact List.forall_mem_cons.2 ⟨hpath index hmem, hs⟩
      · let kept (s : Search) : Prop :=
          ∀ k ∈ s.reentered, Relation.TransGen (fun i j => j ∈ children i) k k
        refine foldl_visit kept (fun s hs c hc => ?_) hs
        refine ih (List.forall_mem_cons.2 ⟨.single hc, fun p hp => ?_⟩) hs
        exact (hpath p hp).tail hc

end Search

end SchemaGraph
