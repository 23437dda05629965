import KeepRules.Property
import KeepRules.Text.Cut

/-! # References replaced in one pass

References are replaced in place, in a text that changes while it is searched. The result is that
of one pass over the word as it was (`expand`), since the text in front of the place where the
search goes on is final and the text behind it is untouched.

* `reference_cases`: a word has no reference, one that is not closed, or a first one.
* `expand_of_notMem`, `expand_of_open`, `expand_of_reference`: one pass over each kind of word.
* `replaceFrom_append`: the search from within a text is one pass over what follows.
* `replace_eq_expand`: so it is for a whole word, whatever the values hold. -/

set_option autoImplicit false

namespace KeepRules

namespace Text

/-- The place of a mark is the length of what stands before it. -/
theorem idxOf?_append {mark : Char} {before : List Char} (h : mark ∉ before) (after : List Char) :
    (before ++ mark :: after).idxOf? mark = some before.length := by
  induction before with
  | nil => simp [List.idxOf?_cons]
  | cons c before ih =>
    obtain ⟨hc, hb⟩ := List.ne_and_not_mem_of_not_mem_cons h
    rw [List.cons_append, List.idxOf?_cons, ih hb]
    simp [Ne.symm hc]

end Text

namespace Properties

variable {value? : String → Option String}

/-- Copies a word from left to right, with the value that `value?` gives its name in the place of
every reference. A name runs to the next closing mark. -/
def expand (value? : String → Option String) (word : List Char) :
    Except PropertyError (List Char) :=
  match word with
  | [] => .ok []
  | c :: rest =>
    if c = '<' then
      match _h : Text.cut '>' rest with
      | none => .error .unterminated
      | some (name, after) =>
        match value? (String.ofList name) with
        | none => .error (.undefined (String.ofList name))
        | some value => (expand value? after).map (value.toList ++ ·)
    else (expand value? rest).map (c :: ·)
termination_by word.length
decreasing_by
  · exact Nat.lt_succ_of_lt (Text.length_of_cut _h)
  · exact Nat.lt_succ_self _

/-- A word has no reference, one that is not closed, or a first one with what follows it. -/
theorem reference_cases (word : List Char) :
    '<' ∉ word ∨
      (∃ before after, word = before ++ '<' :: after ∧ '<' ∉ before ∧ '>' ∉ after) ∨
      ∃ before name after, word = before ++ '<' :: (name ++ '>' :: after) ∧ '<' ∉ before ∧
        '>' ∉ name := by
  cases hopen : Text.cut '<' word with
  | none => exact .inl (Text.cut_eq_none_iff.1 hopen)
  | some p =>
    obtain ⟨before, behind⟩ := p
    obtain ⟨rfl, hbefore⟩ := Text.cut_eq_some_iff.1 hopen
    cases hclose : Text.cut '>' behind with
    | none => exact .inr (.inl ⟨before, behind, rfl, hbefore, Text.cut_eq_none_iff.1 hclose⟩)
    | some q =>
      obtain ⟨name, after⟩ := q
      obtain ⟨rfl, hname⟩ := Text.cut_eq_some_iff.1 hclose
      exact .inr (.inr ⟨before, name, after, rfl, hbefore, hname⟩)

/-! ## One pass -/

/-- What stands before the first reference is copied. -/
theorem expand_append {before : List Char} (h : '<' ∉ before) (rest : List Char) :
    expand value? (before ++ rest) = (expand value? rest).map (before ++ ·) := by
  induction before with
  | nil =>
    rw [List.nil_append]
    cases expand value? rest <;> rfl
  | cons c before ih =>
    obtain ⟨hc, hb⟩ := List.ne_and_not_mem_of_not_mem_cons h
    rw [List.cons_append, expand, if_neg (Ne.symm hc), ih hb]
    cases expand value? rest <;> rfl

theorem expand_of_notMem {word : List Char} (h : '<' ∉ word) : expand value? word = .ok word := by
  have hcopy : expand value? (word ++ []) = (expand value? []).map (word ++ ·) :=
    expand_append h []
  rw [List.append_nil, expand] at hcopy
  rw [hcopy]
  exact congrArg Except.ok (List.append_nil word)

theorem expand_of_open {before after : List Char} (hb : '<' ∉ before) (ha : '>' ∉ after) :
    expand value? (before ++ '<' :: after) = .error .unterminated := by
  have hcut : Text.cut '>' after = none := Text.cut_eq_none_iff.2 ha
  rw [expand_append hb, expand, if_pos rfl]
  split
  · rfl
  · next h => rw [hcut] at h; cases h

theorem expand_of_reference {before name : List Char} (hb : '<' ∉ before) (hn : '>' ∉ name)
    (after : List Char) :
    expand value? (before ++ '<' :: (name ++ '>' :: after)) =
      match value? (String.ofList name) with
      | none => .error (.undefined (String.ofList name))
      | some value => (expand value? after).map (before ++ value.toList ++ ·) := by
  have hcut : Text.cut '>' (name ++ '>' :: after) = some (name, after) :=
    Text.cut_eq_some_iff.2 ⟨rfl, hn⟩
  rw [expand_append hb, expand, if_pos rfl]
  split
  · next h => rw [hcut] at h; cases h
  · next h =>
    rw [hcut] at h
    cases h
    cases value? (String.ofList name) with
    | none => rfl
    | some value =>
      cases expand value? after with
      | error e => rfl
      | ok text => exact congrArg Except.ok (List.append_assoc _ _ _).symm

/-! ## In place -/

section
variable {front before : List Char}

theorem drop_opening (behind : List Char) :
    (front ++ (before ++ '<' :: behind)).drop (front.length + before.length + 1) = behind := by
  rw [← List.append_assoc, ← List.length_append, ← List.drop_drop, List.drop_left]
  rfl

theorem replaceFrom_of_notMem {rest : List Char} (h : '<' ∉ rest) :
    replaceFrom value? (front ++ rest) front.length = .ok (front ++ rest) := by
  rw [replaceFrom, List.drop_left]
  split
  · rfl
  · next ho => rw [List.idxOf?_eq_none_iff.2 h] at ho; cases ho

theorem replaceFrom_of_open {after : List Char} (hb : '<' ∉ before) (ha : '>' ∉ after) :
    replaceFrom value? (front ++ (before ++ '<' :: after)) front.length = .error .unterminated := by
  rw [replaceFrom]
  split
  · next ho => rw [List.drop_left, Text.idxOf?_append hb] at ho; cases ho
  · next ho =>
    rw [List.drop_left, Text.idxOf?_append hb] at ho
    cases ho
    dsimp only
    split
    · rfl
    · next hc => rw [drop_opening, List.idxOf?_eq_none_iff.2 ha] at hc; cases hc

/-- The value takes the place of the first reference, and the search goes on behind it. -/
theorem replaceFrom_of_reference {name : List Char} (hb : '<' ∉ before) (hn : '>' ∉ name)
    (after : List Char) :
    replaceFrom value? (front ++ (before ++ '<' :: (name ++ '>' :: after))) front.length =
      match value? (String.ofList name) with
      | none => .error (.undefined (String.ofList name))
      | some value =>
        replaceFrom value? (front ++ before ++ value.toList ++ after)
          (front ++ before ++ value.toList).length := by
  rw [replaceFrom]
  split
  · next ho => rw [List.drop_left, Text.idxOf?_append hb] at ho; cases ho
  · next ho =>
    rw [List.drop_left, Text.idxOf?_append hb] at ho
    cases ho
    dsimp only
    split
    · next hc => rw [drop_opening, Text.idxOf?_append hn] at hc; cases hc
    · next hc =>
      rw [drop_opening, Text.idxOf?_append hn] at hc
      cases hc
      have hname : (name ++ '>' :: after).take name.length = name := List.take_left
      have hfront : (front ++ (before ++ '<' :: (name ++ '>' :: after))).take
          (front.length + before.length) = front ++ before := by
        rw [← List.append_assoc, ← List.length_append, List.take_left]
      have hafter : (front ++ (before ++ '<' :: (name ++ '>' :: after))).drop
          (front.length + before.length + 1 + name.length + 1) = after := by
        rw [← List.drop_drop, ← List.drop_drop, drop_opening, List.drop_left]
        rfl
      rw [drop_opening, hname, hfront, hafter]
      cases value? (String.ofList name) with
      | none => rfl
      | some value => simp only [List.length_append, String.length_toList]

/-- Searching from within a text is one pass over what follows: what stands in front is not looked
at any more, and what follows has not been changed. -/
theorem replaceFrom_append (front rest : List Char) :
    replaceFrom value? (front ++ rest) front.length =
      (expand value? rest).map (front ++ ·) := by
  -- on the length of what follows, which each reference shortens
  induction hn : rest.length using Nat.strongRecOn generalizing front rest with
  | ind n ih =>
    subst hn
    rcases reference_cases rest with
      h | ⟨before, after, rfl, hb, ha⟩ | ⟨before, name, after, rfl, hb, hn⟩
    · rw [replaceFrom_of_notMem h, expand_of_notMem h]
      rfl
    · rw [replaceFrom_of_open hb ha, expand_of_open hb ha]
      rfl
    · rw [replaceFrom_of_reference hb hn, expand_of_reference hb hn]
      cases value? (String.ofList name) with
      | none => rfl
      | some value =>
        have hshorter : after.length < (before ++ '<' :: (name ++ '>' :: after)).length := by
          simp only [List.length_append, List.length_cons]
          omega
        dsimp only
        rw [ih _ hshorter _ _ rfl]
        cases expand value? after with
        | error e => rfl
        | ok text => simp [Except.map]

end

theorem replaceFrom_zero (word : List Char) : replaceFrom value? word 0 = expand value? word := by
  have h : replaceFrom value? word 0 = (expand value? word).map ([] ++ ·) :=
    replaceFrom_append [] word
  rw [h]
  cases expand value? word <;> rfl

/-- **References are replaced in one pass over the word**, whatever the values hold: what is copied
or inserted is not searched, and the first reference from the left that is not closed or has no
value decides the error. -/
theorem replace_eq_expand (p : Properties) (env : Environment) (word : String) :
    p.replace env word = (expand (p.get? env) word.toList).map String.ofList := by
  rw [replace, replaceFrom_zero]

/-- A value that is its own reference is left as it is, and so is one that opens a reference. -/
example :
    ({ entries := [("loop", "<loop>"), ("lt", "<")] } : Properties).replace ⟨[]⟩ "<loop><lt>a>" =
      .ok "<loop><a>" := by cbv

end Properties

end KeepRules
