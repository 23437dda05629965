import KeepRules.Text.Blank
import KeepRules.Text.Cut

/-! # Words of a line

A comment runs from the first `#` to the end of the line. Of what stands before it, each delimiter
is a word of its own, and so is each longest run of characters that are neither blanks nor
delimiters. The separator of class path entries counts as a delimiter; when it is blank, it only
separates. -/

set_option autoImplicit false

namespace KeepRules.Word

/-- The characters that are always words of their own. -/
def delimiters : List Char := ['@', '\x7b', '\x7d', '(', ')', ',', ';']

def isDelimiter (separator c : Char) : Bool := c == separator || c ∈ delimiters

/-- Puts a run of characters in front of the words that follow it, unless it is empty. -/
def close (run : List Char) (words : List (List Char)) : List (List Char) :=
  if run.isEmpty then words else run :: words

/-- The run of word characters at the start of a text, and the words after that run. -/
def runs (separator : Char) : List Char → List Char × List (List Char)
  | [] => ([], [])
  | c :: rest =>
    let (run, words) := runs separator rest
    if Text.isBlank c then ([], close run words)
    else if isDelimiter separator c then ([], [c] :: close run words)
    else (c :: run, words)

/-- The words of a text without comments. -/
def split (separator : Char) (text : List Char) : List (List Char) :=
  let (run, words) := runs separator text
  close run words

/-- The words of a line and the text of its comment. -/
def ofLine (separator : Char) (line : String) : List String × Option String :=
  match Text.cut '#' line.toList with
  | none => ((split separator line.toList).map String.ofList, none)
  | some (text, comment) =>
    ((split separator text).map String.ofList, some (String.ofList comment))

/-- Splits a leading `!` off a modifier word. The flag is false when there is one. -/
def stripNegator (word : String) : String × Bool :=
  match Text.strip? ['!'] word.toList with
  | some rest => (String.ofList rest, false)
  | none => (word, true)

end KeepRules.Word
