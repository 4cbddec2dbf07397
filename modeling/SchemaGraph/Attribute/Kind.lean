import SchemaGraph.SortedSet

/-!
# Attribute kinds

An attribute is a value under a name, and its kind (`SchemaGraph.AttributeKind`) says what
the library needs to know about the values: how two of them combine, how one is shown, and
whether it takes part in the identity of the node that carries it. So merging attributes
never has to know what they mean.

The types that values can have are listed in `SchemaGraph.ValueType`. Candidate names are a type of
their own, so a set of other texts under their name is a value of the wrong type.
-/

namespace SchemaGraph

/-- The type of an attribute's values. -/
inductive ValueType
  /-- Sets of candidate names. -/
  | candidates
  /-- Sets of texts. -/
  | labels
  /-- Sets of numbers. -/
  | markers
  /-- One text. -/
  | text
  /-- One number. -/
  | number
deriving DecidableEq

/-- The values of a value type. -/
@[reducible]
def ValueType.Carrier : ValueType → Type
  | candidates => SortedSet String
  | labels => SortedSet String
  | markers => SortedSet Nat
  | text => String
  | number => Nat

/-- What is known of the attributes under one name. -/
structure AttributeKind (t : ValueType) where
  name : String
  /-- The value that stands for an earlier and a later one. -/
  combine : t.Carrier → t.Carrier → t.Carrier
  /-- How a value is shown; a kind may decline. -/
  stringify : t.Carrier → Option String
  /-- What a value adds to the identity of its node, for kinds that take part in it. -/
  identity : Option (t.Carrier → String)

/-- The rule of scalar kinds: the later value replaces the earlier one. -/
def keepLater {α : Type} (_ later : α) : α := later

namespace AttributeKind

/-- Candidate names of a node, gathered from wherever it was seen. -/
def names : AttributeKind .candidates where
  name := "names"
  combine := SortedSet.union
  stringify s := if s.toList.isEmpty then none else some (",".intercalate s.toList)
  identity := none

/-- What one says of a set of descriptions: the first, and how many more there are. -/
def describe (s : SortedSet String) : Option String :=
  s.min?.map fun first =>
    if s.size > 1 then first ++ s!" (+{s.size - 1} more)" else first

/-- Free-form documentation of a node or a root. -/
def description : AttributeKind .labels where
  name := "description"
  combine := SortedSet.union
  stringify := describe
  identity := none

/-- Origin markers of a node, used to audit transformations. -/
def provenance : AttributeKind .markers where
  name := "provenance"
  combine := SortedSet.union
  stringify s := some (",".intercalate (s.toList.map Nat.repr))
  identity := none

end AttributeKind

/-- The name that a renderer would pick from candidate names: the first of them. -/
def pickName (names : SortedSet String) : Option String := names.min?

end SchemaGraph
