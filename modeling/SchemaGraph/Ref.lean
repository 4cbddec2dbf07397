/-!
# References to nodes

A node of a schema graph is named by the generation it belongs to and its index there
(`SchemaGraph.Ref`). Node 3 of generation 5 and node 3 of generation 6 have nothing to do
with each other, so a reference carries both numbers, and references of different
generations are never equal.

References are ordered by generation first and by index within a generation.
-/

namespace SchemaGraph

/-- A node of one generation of a schema graph. -/
structure Ref where
  /-- The serial number of the generation. -/
  serial : Nat
  /-- The place of the node in that generation. -/
  index : Nat
deriving DecidableEq, Inhabited

namespace Ref

instance : LT Ref where
  lt a b := a.serial < b.serial ∨ a.serial = b.serial ∧ a.index < b.index

theorem lt_def {a b : Ref} :
    a < b ↔ a.serial < b.serial ∨ a.serial = b.serial ∧ a.index < b.index :=
  Iff.rfl

instance : DecidableLT Ref := fun a b =>
  inferInstanceAs (Decidable (a.serial < b.serial ∨ a.serial = b.serial ∧ a.index < b.index))

instance : Trans (α := Ref) (· < ·) (· < ·) (· < ·) where
  trans := by
    intro a b c hab hbc
    rw [lt_def] at *
    omega

instance : Std.Trichotomous (α := Ref) (· < ·) where
  trichotomous := by
    rintro ⟨s, i⟩ ⟨t, j⟩ hab hba
    simp only [lt_def, mk.injEq] at *
    omega

/-- How two references compare. -/
def compare (a b : Ref) : Ordering :=
  if a < b then .lt else if a = b then .eq else .gt

/-- The written form of a reference: index, then generation. -/
def text (r : Ref) : String := s!"#{r.index}@{r.serial}"

/-- One more than the largest index, and than the largest serial number, of a reference. -/
def limit : Nat := UInt32.size

end Ref

end SchemaGraph
