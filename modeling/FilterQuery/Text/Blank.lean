/-!
# Blank characters

The characters with the Unicode property White_Space, as ranges of code points (`blankRanges`),
and texts that hold nothing else (`isBlankText`).
-/

set_option autoImplicit false

namespace FilterQuery.Text

/-- The code points with the property White_Space, as first and last of each range. -/
def blankRanges : List (Nat × Nat) :=
  [(0x0009, 0x000D), (0x0020, 0x0020), (0x0085, 0x0085), (0x00A0, 0x00A0), (0x1680, 0x1680),
    (0x2000, 0x200A), (0x2028, 0x2029), (0x202F, 0x202F), (0x205F, 0x205F), (0x3000, 0x3000)]

/-- The character has the property White_Space. -/
def isBlank (c : Char) : Bool := blankRanges.any fun (first, last) =>
  decide (first ≤ c.toNat) && decide (c.toNat ≤ last)

/-- The text holds only blank characters. -/
def isBlankText (s : String) : Bool := s.toList.all isBlank

end FilterQuery.Text
