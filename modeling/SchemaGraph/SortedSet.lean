/-!
# Sorted sets

A finite set kept as its strictly ascending list of members
(`SchemaGraph.SortedSet`). The list is determined by the members, so two sets with the
same members are equal, and whatever is printed in the order of the list is printed in
ascending order without repeats.

The order of the members is any transitive `<` that can be decided. Main statement:
`SchemaGraph.SortedSet.mem_insert`, for orders in which two incomparable members are equal.
-/

namespace SchemaGraph

/-! ### Texts as members -/

instance instTransText : Trans (α := String) (· < ·) (· < ·) (· < ·) where
  trans := String.lt_trans

instance instTrichotomousText : Std.Trichotomous (α := String) (· < ·) where
  trichotomous _ _ hab hba := String.le_antisymm (String.not_lt.1 hba) (String.not_lt.1 hab)

/-! ### Sets -/

/-- A finite set, as the ascending list of its members. -/
structure SortedSet (α : Type) [LT α] where
  /-- The members, ascending. -/
  toList : List α
  sorted : toList.Pairwise (· < ·)
deriving DecidableEq

namespace SortedSet

variable {α : Type} [LT α]

instance : Membership α (SortedSet α) where
  mem s a := a ∈ s.toList

theorem mem_def {s : SortedSet α} {a : α} : a ∈ s ↔ a ∈ s.toList := Iff.rfl

instance [DecidableEq α] (s : SortedSet α) (a : α) : Decidable (a ∈ s) :=
  inferInstanceAs (Decidable (a ∈ s.toList))

/-- The set without members. -/
def empty : SortedSet α where
  toList := []
  sorted := .nil

instance : EmptyCollection (SortedSet α) := ⟨empty⟩

instance : Inhabited (SortedSet α) := ⟨empty⟩

/-- The set of one member. -/
def singleton (a : α) : SortedSet α where
  toList := [a]
  sorted := by simp

/-- Number of members. -/
def size (s : SortedSet α) : Nat := s.toList.length

/-- The least member. -/
def min? (s : SortedSet α) : Option α := s.toList.head?

section Insert

variable [DecidableLT α]

/-- The ascending list with `a` at its place; a list that has `a` stays as it is. -/
def insertList (a : α) : List α → List α
  | [] => [a]
  | b :: bs => if a < b then a :: b :: bs else if b < a then b :: insertList a bs else b :: bs

theorem eq_or_mem_of_mem_insertList {a c : α} {bs : List α} (h : c ∈ insertList a bs) :
    c = a ∨ c ∈ bs := by
  induction bs with
  | nil => simpa [insertList] using h
  | cons b bs ih =>
    simp only [insertList] at h
    split at h
    · simpa using h
    · split at h
      · rcases List.mem_cons.1 h with rfl | h
        · simp
        · rcases ih h with rfl | h <;> simp [*]
      · exact .inr h

theorem mem_insertList_of_mem {a c : α} {bs : List α} (h : c ∈ bs) : c ∈ insertList a bs := by
  induction bs with
  | nil => simp at h
  | cons b bs ih =>
    simp only [insertList]
    split
    · exact List.mem_cons_of_mem _ h
    · split
      · rcases List.mem_cons.1 h with rfl | h
        · simp
        · exact List.mem_cons_of_mem _ (ih h)
      · exact h

theorem mem_insertList_self [Std.Trichotomous (α := α) (· < ·)] {a : α} {bs : List α} :
    a ∈ insertList a bs := by
  induction bs with
  | nil => simp [insertList]
  | cons b bs ih =>
    simp only [insertList]
    split
    · simp
    · split
      · exact List.mem_cons_of_mem _ ih
      · rw [Std.Trichotomous.trichotomous (r := (· < ·)) a b ‹_› ‹_›]
        simp

variable [Trans (α := α) (· < ·) (· < ·) (· < ·)]

theorem pairwise_insertList {a : α} {bs : List α} (h : bs.Pairwise (· < ·)) :
    (insertList a bs).Pairwise (· < ·) := by
  induction bs with
  | nil => simp [insertList]
  | cons b bs ih =>
    obtain ⟨hb, hbs⟩ := List.pairwise_cons.1 h
    simp only [insertList]
    split
    · rename_i hab
      refine List.pairwise_cons.2 ⟨fun c hc => ?_, h⟩
      rcases List.mem_cons.1 hc with rfl | hc
      · exact hab
      · exact Trans.trans hab (hb c hc)
    · split
      · rename_i hba
        refine List.pairwise_cons.2 ⟨fun c hc => ?_, ih hbs⟩
        rcases eq_or_mem_of_mem_insertList hc with rfl | hc
        · exact hba
        · exact hb c hc
      · exact h

/-- The set with one more member. -/
def insert (s : SortedSet α) (a : α) : SortedSet α where
  toList := insertList a s.toList
  sorted := pairwise_insertList s.sorted

/-- The set of the members of a list. -/
def ofList (as : List α) : SortedSet α := as.foldl insert empty

/-- The members of either set. -/
def union (s t : SortedSet α) : SortedSet α := t.toList.foldl insert s

/-- **Inserting adds exactly one member.** -/
theorem mem_insert [Std.Trichotomous (α := α) (· < ·)] {s : SortedSet α} {a c : α} :
    c ∈ s.insert a ↔ c = a ∨ c ∈ s := by
  refine ⟨eq_or_mem_of_mem_insertList, ?_⟩
  rintro (rfl | h)
  · exact mem_insertList_self
  · exact mem_insertList_of_mem h

end Insert

/-- The members that satisfy `p`. -/
def filter (p : α → Bool) (s : SortedSet α) : SortedSet α where
  toList := s.toList.filter p
  sorted := s.sorted.filter p

/-- The members of the first set that the second lacks. -/
def diff [DecidableEq α] (s t : SortedSet α) : SortedSet α := s.filter (· ∉ t)

end SortedSet

end SchemaGraph
