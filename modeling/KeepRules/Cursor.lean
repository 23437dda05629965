import KeepRules.Directive
import KeepRules.Reader.Order

/-! # Cursors

A reader with one word of lookahead. The cursor's word is what the reader gave last, except after
a read that failed: then it is still the word before. -/

set_option autoImplicit false

namespace KeepRules

structure Cursor where
  reader : Reader
  word : Option String
  deriving DecidableEq

namespace Cursor

/-- Starts at the first word. -/
def ofReader (r : Reader) : Except ParseError Cursor :=
  match r.next with
  | .ok word r => .ok { reader := r, word := word }
  | .error e _ => .error e

/-- No word is left, or the word starts the next directive. -/
def atEnd (c : Cursor) : Bool := c.word.all Directive.starts

/-- Whether the lookahead is exactly this word. -/
def is (c : Cursor) (literal : String) : Bool := c.word == some literal

/-- How a cursor moves when a step succeeds: words are read, and if one is left as the lookahead,
at least one was read. -/
structure Progress (c' c : Cursor) : Prop where
  atMost : c'.reader.AtMost c.reader
  before : c'.word.isSome = true → c'.reader.Before c.reader

namespace Progress

theorem trans {a b c : Cursor} (h : Progress a b) (h' : Progress b c) : Progress a c where
  atMost := h.atMost.trans h'.atMost
  before hw := (h.before hw).of_atMost h'.atMost

theorem of_before {c' c : Cursor} (h : c'.reader.Before c.reader) : Progress c' c where
  atMost := .inl h
  before _ := h

end Progress

end Cursor

end KeepRules
