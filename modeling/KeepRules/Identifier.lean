import KeepRules.Text.Alphabetic

/-! # Identifiers

The characters an identifier is made of, and the words that may stand for names, types and
patterns: qualified, possibly array types, possibly with the wildcards `*` and `?`. -/

set_option autoImplicit false

namespace KeepRules.Identifier

/-- The zero of each run of ten decimal digits outside ASCII. -/
def decimalZeros : List Nat :=
  [0x0660, 0x06F0, 0x07C0, 0x0966, 0x09E6, 0x0A66, 0x0AE6, 0x0B66, 0x0BE6, 0x0C66, 0x0CE6,
   0x0D66, 0x0DE6, 0x0E50, 0x0ED0, 0x0F20, 0x1040, 0x1090, 0x17E0, 0x1810, 0x1946, 0x19D0,
   0x1A80, 0x1A90, 0x1B50, 0x1BB0, 0x1C40, 0x1C50, 0xA620, 0xA8D0, 0xA900, 0xA9D0, 0xA9F0,
   0xAA50, 0xABF0, 0xFF10, 0x104A0, 0x11066, 0x110F0, 0x11136, 0x111D0, 0x112F0, 0x11450,
   0x114D0, 0x11650, 0x116C0, 0x11730, 0x118E0, 0x1E950]

def connectingPunctuation : List (Nat × Nat) :=
  [(0x203F, 0x2040), (0x2054, 0x2054), (0xFE33, 0xFE34), (0xFE4D, 0xFE4F), (0xFF3F, 0xFF3F)]

def currencySymbols : List (Nat × Nat) :=
  [(0xA2, 0xA5), (0x58F, 0x58F), (0x60B, 0x60B), (0x9F2, 0x9F3), (0x9FB, 0x9FB), (0xAF1, 0xAF1),
   (0xBF9, 0xBF9), (0xE3F, 0xE3F), (0x17DB, 0x17DB), (0x20A0, 0x20C0), (0xA838, 0xA838),
   (0xFDFC, 0xFDFC), (0xFE69, 0xFE69), (0xFF04, 0xFF04), (0xFFE0, 0xFFE1), (0xFFE5, 0xFFE6)]

def combiningMarks : List (Nat × Nat) :=
  [(0x300, 0x36F), (0x483, 0x487), (0x591, 0x5BD), (0x1AB0, 0x1AFF), (0x1DC0, 0x1DFF),
   (0x20D0, 0x20F0), (0xFE00, 0xFE0F), (0xFE20, 0xFE2F)]

def ignorable : List (Nat × Nat) :=
  [(0x80, 0x9F), (0xAD, 0xAD), (0x200B, 0x200F), (0x202A, 0x202E), (0x2060, 0x2064),
   (0xFEFF, 0xFEFF)]

/-- ASCII letters and digits, `_`, `$` and the control characters that are no blanks. -/
def isAsciiPart (c : Char) : Bool :=
  c.isAlphanum || c == '_' || c == '$' || Text.inRanges [(0x0, 0x8), (0xE, 0x1B), (0x7F, 0x7F)] c

def isDecimalDigit (c : Char) : Bool :=
  Text.inRanges (decimalZeros.map fun first => (first, first + 9)) c

/-- Outside ASCII: letters, decimal digits, connecting punctuation, currency symbols, combining
marks and ignorable controls. Superscripts, fractions and the like are in none of these. -/
def isPart (c : Char) : Bool :=
  if c.toNat < 0x80 then isAsciiPart c
  else
    Text.isAlphabetic c || isDecimalDigit c ||
      Text.inRanges (connectingPunctuation ++ currencySymbols ++ combiningMarks ++ ignorable) c

/-- What qualifies a name, makes it an array type, or is a wildcard. -/
def isPatternMark (c : Char) : Bool := c ∈ ['.', '[', ']', '<', '>', '*', '?']

def isPatternChar (c : Char) : Bool := isPart c || isPatternMark c

/-- Whether every character of the word may occur in an identifier pattern. -/
def isPattern (word : String) : Bool := word.toList.all isPatternChar

theorem isPattern_iff (word : String) :
    isPattern word = true ↔ ∀ c ∈ word.toList, isPatternChar c = true := by
  simp [isPattern]

end KeepRules.Identifier
