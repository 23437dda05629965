/-! # Blank characters

The characters that separate words: the 25 code points with the Unicode property White_Space. -/

set_option autoImplicit false

namespace KeepRules.Text

/-- The code points with the property White_Space, as inclusive ranges. -/
def blanks : List (Nat × Nat) :=
  [(0x9, 0xD), (0x20, 0x20), (0x85, 0x85), (0xA0, 0xA0), (0x1680, 0x1680), (0x2000, 0x200A),
   (0x2028, 0x2029), (0x202F, 0x202F), (0x205F, 0x205F), (0x3000, 0x3000)]

/-- Whether the code point of `c` lies in one of the inclusive ranges. -/
def inRanges (ranges : List (Nat × Nat)) (c : Char) : Bool :=
  ranges.any fun r => decide (r.1 ≤ c.toNat) && decide (c.toNat ≤ r.2)

def isBlank (c : Char) : Bool := inRanges blanks c

/-- Twenty-five code points in all. -/
example : (blanks.map fun r => r.2 + 1 - r.1).sum = 25 := by decide

end KeepRules.Text
