/-! # JSON values and their text

Fields of objects keep their order. Whole numbers are kept apart from numbers with a fraction or
an exponent, which no value of this library has. -/

set_option autoImplicit false

namespace KeepRules

inductive Json where
  | null
  | bool (b : Bool)
  | number (n : Int)
  /-- A number that is not written as a whole number. -/
  | decimal (text : String)
  | string (s : String)
  | array (items : List Json)
  | object (fields : List (String × Json))

namespace Json

def hexDigits (width n : Nat) : String :=
  let digits := Nat.toDigits 16 n
  String.ofList (List.replicate (width - digits.length) '0' ++ digits)

/-- Quotes, backslashes and control characters are escaped, and nothing else. -/
def escapeChar (c : Char) : String :=
  match c with
  | '\x22' => "\\\""
  | '\\' => "\\\\"
  | '\x08' => "\\b"
  | '\x0c' => "\\f"
  | '\n' => "\\n"
  | '\r' => "\\r"
  | '\t' => "\\t"
  | c => if c.toNat < 0x20 then "\\u" ++ hexDigits 4 c.toNat else c.toString

def quote (s : String) : String := "\"" ++ String.join (s.toList.map escapeChar) ++ "\""

/-- A new line at the given depth, two spaces for each level. -/
def newLine (depth : Nat) : String := "\n" ++ String.ofList (List.replicate (2 * depth) ' ')

/-- Items between brackets, each on a line of its own. -/
def enclose (depth : Nat) (opening closing : String) (items : List String) : String :=
  if items.isEmpty then opening ++ closing
  else
    opening ++ newLine (depth + 1) ++ ("," ++ newLine (depth + 1)).intercalate items ++
      newLine depth ++ closing

/-- The text of a value that starts at the given depth. -/
def prettyAt (depth : Nat) : Json → String
  | null => "null"
  | bool true => "true"
  | bool false => "false"
  | number n => toString n
  | decimal text => text
  | string s => quote s
  | array items =>
    enclose depth "[" "]" (items.attach.map fun ⟨item, _⟩ => prettyAt (depth + 1) item)
  | object fields =>
    enclose depth "\x7b" "\x7d"
      (fields.attach.map fun ⟨(name, value), _⟩ => quote name ++ ": " ++ prettyAt (depth + 1) value)
termination_by j => sizeOf j
decreasing_by
  · have := List.sizeOf_lt_of_mem ‹_›
    simp only [array.sizeOf_spec]
    omega
  · have := List.sizeOf_lt_of_mem ‹_›
    simp only [object.sizeOf_spec, Prod.mk.sizeOf_spec] at *
    omega

/-- Two spaces of indentation, one item or field on a line. -/
def pretty (j : Json) : String := prettyAt 0 j

end Json

end KeepRules
