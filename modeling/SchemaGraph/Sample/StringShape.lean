import SchemaGraph.Literal.Kind
import SchemaGraph.SortedSet

/-!
# Observed strings

What is remembered of the strings seen at one place of the samples
(`SchemaGraph.StringShape`), and what is concluded from it: the one primitive kind that all
of them fit, or the cases of an enum, if they are a small closed set of labels.

Only a limited number of different strings is kept. The limit is far above the number of
cases that an enum may have, so the conclusions do not depend on which strings those are.
-/

namespace SchemaGraph

/-- The strings seen at one place. -/
structure StringShape where
  /-- Different strings, up to `SchemaGraph.StringShape.maxLiterals` of them. -/
  literals : SortedSet String
  /-- Whether there were more. -/
  overflowed : Bool
  /-- Number of strings, repeats included. -/
  observations : Nat
  /-- The kinds of the strings. -/
  kinds : SortedSet PrimitiveKind
deriving DecidableEq

namespace StringShape

/-- How many different strings are kept. -/
def maxLiterals : Nat := 64

/-- How many cases an enum may have. -/
def maxCases : Nat := 8

/-- No strings. -/
def empty : StringShape := ⟨∅, false, 0, ∅⟩

instance : EmptyCollection StringShape := ⟨empty⟩

/-- The shape after one more string. -/
def observe (s : StringShape) (text : String) : StringShape where
  literals := if s.literals.size < maxLiterals then s.literals.insert text else s.literals
  overflowed := s.overflowed || (maxLiterals ≤ s.literals.size && text ∉ s.literals)
  observations := s.observations + 1
  kinds := s.kinds.insert (Literal.classify text)

/-- The one kind of all strings, or plain string if they disagree. -/
def kind (s : StringShape) : PrimitiveKind :=
  match s.kinds.toList with
  | [only] => only
  | _ => .string

/-- The strings as cases of an enum: few labels, all of them plain strings, some of which
were seen again. -/
def closedLabels? (s : StringShape) : Option (List String) :=
  let cases := s.literals.toList
  if s.kind = .string && !s.overflowed && !cases.isEmpty && cases.length ≤ maxCases &&
      cases.length < s.observations && cases.all Literal.isLabel
  then some cases
  else none

end StringShape

end SchemaGraph
