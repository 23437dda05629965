/-! # Cutting texts at a mark

`cut` splits a text at the first occurrence of a mark, `split` at every one. Both lose nothing but
the marks (`cut_eq_some_iff`, `intercalate_split`). -/

set_option autoImplicit false

namespace KeepRules.Text

/-- What stands before the first `mark`, and what stands after it. -/
def cut (mark : Char) : List Char → Option (List Char × List Char)
  | [] => none
  | c :: rest =>
    if c = mark then some ([], rest)
    else (cut mark rest).map fun p => (c :: p.1, p.2)

/-- The pieces between the marks, one more than there are marks. -/
def split (mark : Char) : List Char → List (List Char)
  | [] => [[]]
  | c :: rest =>
    if c = mark then [] :: split mark rest
    else
      match split mark rest with
      | [] => [[c]]
      | piece :: pieces => (c :: piece) :: pieces

/-- What is left of `text` after `start`, if it starts so. -/
def strip? (start text : List Char) : Option (List Char) :=
  if start.isPrefixOf text then some (text.drop start.length) else none

theorem cut_eq_some_iff {mark : Char} {s before after : List Char} :
    cut mark s = some (before, after) ↔ s = before ++ mark :: after ∧ mark ∉ before := by
  induction s generalizing before with
  | nil => simp [cut]
  | cons c s ih =>
    rw [cut]
    split
    · next h => cases before <;> simp_all
    · next h =>
      simp only [Option.map_eq_some_iff, Prod.exists, Prod.mk.injEq]
      constructor
      · rintro ⟨b, a, hb, rfl, rfl⟩
        have := ih.1 hb
        simp [this.1, this.2, Ne.symm h]
      · rintro ⟨hs, hm⟩
        cases before with
        | nil => simp at hs; exact absurd hs.1 h
        | cons d b =>
          simp only [List.cons_append, List.cons.injEq, List.mem_cons, not_or] at hs hm
          exact ⟨b, after, ih.2 ⟨hs.2, hm.2⟩, by simp [hs.1], rfl⟩

theorem cut_eq_none_iff {mark : Char} {s : List Char} : cut mark s = none ↔ mark ∉ s := by
  induction s with
  | nil => simp [cut]
  | cons c s ih =>
    rw [cut]
    split
    · next h => simp [h]
    · next h => simp [ih, Ne.symm h]

theorem length_of_cut {mark : Char} {s before after : List Char}
    (h : cut mark s = some (before, after)) : after.length < s.length := by
  rw [(cut_eq_some_iff.1 h).1]
  simp only [List.length_append, List.length_cons]
  omega

theorem split_ne_nil (mark : Char) (s : List Char) : split mark s ≠ [] := by
  cases s with
  | nil => simp [split]
  | cons c s =>
    rw [split]
    split
    · simp
    · split <;> simp

theorem intercalate_split (mark : Char) (s : List Char) :
    [mark].intercalate (split mark s) = s := by
  induction s with
  | nil => rfl
  | cons c s ih =>
    have hne := split_ne_nil mark s
    rw [split]
    cases hs : split mark s with
    | nil => exact absurd hs hne
    | cons piece pieces =>
      rw [hs] at ih
      split
      · next h => simp [List.intercalate, List.intersperse, h] at ih ⊢; exact ih
      · cases pieces <;> simp_all [List.intercalate, List.intersperse]

end KeepRules.Text
