/-!
# Number literals

When a number literal is an integer, and when it is too large to be read at all.

A literal that is no integer is read into a significand of 64 bits and a power of ten
(`SchemaGraph.Decimal.Scaled`): digits that no longer fit are dropped, and those of the
integer part then count for the exponent. The literal is refused if the product of the two,
each first rounded to 53 bits, is no longer finite among the double-precision numbers
(`SchemaGraph.Decimal.Scaled.isFinite`).
-/

namespace SchemaGraph.Decimal

/-- The value of a decimal digit. -/
def digitValue (c : Char) : Nat := c.toNat - '0'.toNat

/-- The number that a list of digits writes. -/
def naturalOf (digits : List Char) : Nat := digits.foldl (fun n c => 10 * n + digitValue c) 0

/-- The nearest number with 53 significant bits; of two, the one whose last bit is zero. -/
def round53 (n : Nat) : Nat :=
  if n < 1 <<< 53 then n
  else
    let unit := 1 <<< (n.log2 - 52)
    let quotient := n / unit
    let rest := n % unit
    let up := 2 * rest > unit || (2 * rest = unit && quotient % 2 = 1)
    (if up then quotient + 1 else quotient) * unit

example : round53 (1 <<< 53 + 1) = 1 <<< 53 ∧ round53 (1 <<< 53 + 3) = 1 <<< 53 + 4 := by
  decide +kernel

/-- The least numbers that round to infinity: halfway between the largest finite double and
the next power of two. -/
def overflowBound : Nat := 1 <<< 1024 - 1 <<< 970

/-- A significand and a power of ten. -/
structure Scaled where
  significand : Nat
  exponent : Int
deriving DecidableEq

namespace Scaled

/-- The significand with one more digit, if it still fits 64 bits. -/
def push? (significand : Nat) (c : Char) : Option Nat :=
  let next := 10 * significand + digitValue c
  if next < UInt64.size then some next else none

/-- Take the digits of an integer part. From the first digit that does not fit, digits only
count for the exponent. -/
def takeInteger (significand : Nat) : List Char → Scaled
  | [] => ⟨significand, 0⟩
  | c :: rest =>
    match push? significand c with
    | some next => takeInteger next rest
    | none => ⟨significand, rest.length + 1⟩

/-- Take the digits of a fraction. From the first digit that does not fit, digits are
dropped. -/
def takeFraction (s : Scaled) : List Char → Scaled
  | [] => s
  | c :: rest =>
    match push? s.significand c with
    | some next => takeFraction ⟨next, s.exponent - 1⟩ rest
    | none => s

/-- Whether the number is read as a finite one. -/
def isFinite (s : Scaled) : Bool :=
  s.significand = 0 || s.exponent < 0 ||
    (s.exponent ≤ 308 &&
      round53 s.significand * round53 (Nat.pow 10 s.exponent.toNat) < overflowBound)

end Scaled

/-- The parts of a number literal. -/
structure Number where
  negative : Bool
  /-- The digits in front of the point. -/
  integer : List Char
  /-- The digits behind the point, if there is one. -/
  fraction : Option (List Char)
  /-- The exponent, if there is one. -/
  exponent : Option Int

namespace Number

/-- The integer that a literal writes. A literal with a point or an exponent writes none, nor
does one that does not fit 64 bits or is a negative zero. -/
def integer? (n : Number) : Option Int :=
  if n.fraction.isSome || n.exponent.isSome then none
  else
    let magnitude := naturalOf n.integer
    if n.negative then
      if magnitude ≠ 0 && magnitude ≤ 1 <<< 63 then some (-magnitude) else none
    else if magnitude < UInt64.size then some magnitude
    else none

/-- The literal as significand and power of ten. -/
def scaled (n : Number) : Scaled :=
  let s := (Scaled.takeInteger 0 n.integer).takeFraction (n.fraction.getD [])
  { s with exponent := s.exponent + n.exponent.getD 0 }

end Number

end SchemaGraph.Decimal
