/-!
# Primitive kinds

The kinds of node that have no children (`SchemaGraph.PrimitiveKind`): what a JSON scalar
can be, the empty and the universal kind, and strings with a recognised format. Only the
latter – the **formatted** kinds – can be turned into plain strings, and a
`SchemaGraph.StringMapping` says which of them are.
-/

namespace SchemaGraph

/-- A kind of node without children. -/
inductive PrimitiveKind
  | none
  | any
  | null
  | bool
  | integer
  | double
  | string
  | date
  | time
  | dateTime
  | uuid
  | uri
  | integerString
  | boolString
deriving DecidableEq, Inhabited

namespace PrimitiveKind

/-- All kinds, in their order. -/
def all : List PrimitiveKind :=
  [none, any, null, bool, integer, double, string, date, time, dateTime, uuid, uri, integerString,
    boolString]

/-- The place of a kind in the order of kinds. -/
def rank : PrimitiveKind → Nat
  | none => 0
  | any => 1
  | null => 2
  | bool => 3
  | integer => 4
  | double => 5
  | string => 6
  | date => 7
  | time => 8
  | dateTime => 9
  | uuid => 10
  | uri => 11
  | integerString => 12
  | boolString => 13

theorem rank_injective {a b : PrimitiveKind} (h : a.rank = b.rank) : a = b := by
  cases a <;> cases b <;> first | rfl | (simp [rank] at h)

instance : LT PrimitiveKind where
  lt a b := a.rank < b.rank

instance : DecidableLT PrimitiveKind := fun a b =>
  inferInstanceAs (Decidable (a.rank < b.rank))

instance : Trans (α := PrimitiveKind) (· < ·) (· < ·) (· < ·) where
  trans := fun {_ _ _} hab hbc => Nat.lt_trans hab hbc

instance : Std.Trichotomous (α := PrimitiveKind) (· < ·) where
  trichotomous := fun _ _ hab hba =>
    rank_injective (Nat.le_antisymm (Nat.le_of_not_lt hba) (Nat.le_of_not_lt hab))

/-- The name of a kind. -/
def name : PrimitiveKind → String
  | none => "none"
  | any => "any"
  | null => "null"
  | bool => "bool"
  | integer => "integer"
  | double => "double"
  | string => "string"
  | date => "date"
  | time => "time"
  | dateTime => "date-time"
  | uuid => "uuid"
  | uri => "uri"
  | integerString => "integer-string"
  | boolString => "bool-string"

/-- The kind of a name. -/
def ofName? (name : String) : Option PrimitiveKind := all.find? (·.name = name)

/-- Strings with a recognised format. -/
def isFormatted : PrimitiveKind → Bool
  | date | time | dateTime | uuid | uri | integerString | boolString => true
  | _ => false

/-- A kind can be read back from its name. -/
theorem ofName?_name (k : PrimitiveKind) : ofName? k.name = some k := by
  cases k <;> decide

end PrimitiveKind

/-- What each formatted string kind becomes in a derived graph. -/
structure StringMapping where
  /-- The kind that stands for a formatted kind; without meaning on other kinds. -/
  target : PrimitiveKind → PrimitiveKind

namespace StringMapping

/-- Every formatted kind becomes a plain string. -/
def plain : StringMapping := ⟨fun _ => .string⟩

/-- Every formatted kind is kept. -/
def preserving : StringMapping := ⟨id⟩

/-- The mapping that sends `kind` to `target` and the other kinds where they went. -/
def redirect (m : StringMapping) (kind target : PrimitiveKind) : StringMapping :=
  ⟨fun k => if k = kind then target else m.target k⟩

/-- The image of a kind. Only formatted kinds move. -/
def apply (m : StringMapping) (kind : PrimitiveKind) : PrimitiveKind :=
  if kind.isFormatted then m.target kind else kind

theorem apply_preserving (k : PrimitiveKind) : preserving.apply k = k := by
  simp [apply, preserving]

end StringMapping

end SchemaGraph
