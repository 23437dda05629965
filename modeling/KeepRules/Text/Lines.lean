/-! # Lines of texts and of byte contents

A content is cut after each line feed; the pieces put together again give the content back
(`flatten_chunks`). A line is a piece without its final line feed and without one carriage return
right before that line feed. A byte content is cut before it is decoded, so that a piece that is
not UTF-8 spoils no other line. -/

set_option autoImplicit false

namespace KeepRules.Text

/-- The pieces of a list that end after each element satisfying `p`, and at the end of the list. -/
def chunks {α : Type} (p : α → Bool) : List α → List (List α)
  | [] => []
  | a :: rest =>
    if p a then [a] :: chunks p rest
    else
      match chunks p rest with
      | [] => [[a]]
      | piece :: pieces => (a :: piece) :: pieces

/-- The text of a piece without its line ending, `\n` or `\r\n`. -/
def withoutLineEnding (piece : List Char) : List Char :=
  match piece.reverse with
  | '\n' :: '\r' :: rest => rest.reverse
  | '\n' :: rest => rest.reverse
  | _ => piece

/-- The lines of a text. A text that ends in a line feed has no further, empty line after it. -/
def lines (text : String) : List String :=
  (chunks (· == '\n') text.toList).map fun piece => String.ofList (withoutLineEnding piece)

/-- The lines of a byte content, `none` standing for a line that is not UTF-8. -/
def byteLines (bytes : ByteArray) : List (Option String) :=
  (chunks (· == 0x0A) bytes.data.toList).map fun piece =>
    (String.fromUTF8? ⟨piece.toArray⟩).map fun s => String.ofList (withoutLineEnding s.toList)

theorem flatten_chunks {α : Type} (p : α → Bool) (l : List α) : (chunks p l).flatten = l := by
  induction l with
  | nil => rfl
  | cons a rest ih =>
    rw [chunks]
    split
    · simp [ih]
    · split
      · next h => simp [h] at ih; simp [← ih]
      · next h => simp [h] at ih; simp [← ih]

end KeepRules.Text
