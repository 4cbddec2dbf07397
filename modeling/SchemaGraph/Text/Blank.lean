/-!
# White space

The characters with the Unicode property `White_Space` (`SchemaGraph.Text.isBlank`). They
are what a blank line of a stream may hold, and what a calendar field skips in front of its
digits.
-/

namespace SchemaGraph.Text

/-- The code points of white space, as inclusive ranges. -/
def blankRanges : List (Nat × Nat) :=
  [(0x09, 0x0D), (0x20, 0x20), (0x85, 0x85), (0xA0, 0xA0), (0x1680, 0x1680), (0x2000, 0x200A),
    (0x2028, 0x2029), (0x202F, 0x202F), (0x205F, 0x205F), (0x3000, 0x3000)]

/-- Whether a character is white space. -/
def isBlank (c : Char) : Bool := blankRanges.any fun r => r.1 ≤ c.toNat && c.toNat ≤ r.2

/-- The text from its first character that is not white space. -/
def trimStart (s : List Char) : List Char := s.dropWhile isBlank

example : (blankRanges.map fun r => r.2 + 1 - r.1).sum = 25 := by decide

end SchemaGraph.Text
