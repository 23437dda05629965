import KeepRules.Directive
import KeepRules.Identifier
import KeepRules.Word

/-! # Words and the texts that they are cut from

`IsWord` says what the words of a line look like, whatever the separator, and `IsPlain` which of
them can stand inside a directive.

* `isWord_of_mem_words`: every word that a text is cut into is one.
* `words_append`: a text can be cut at a blank or a delimiter, and its parts taken by themselves.
  Cut at blanks, it loses them (`words_append_blanks`).
* `words_of_isWord`: a word by itself is cut into nothing but itself.
* `isWord_iff`: whether a text is a word can be checked. -/

set_option autoImplicit false

namespace KeepRules

namespace Word

/-- The words of a text without comments, as texts. -/
def words (separator : Char) (text : List Char) : List String :=
  (split separator text).map String.ofList

/-- What a reader can give: no blank and no comment mark occurs in it, and a delimiter only if it
is the whole word. -/
structure IsWord (separator : Char) (word : String) : Prop where
  ne_empty : word ≠ ""
  notBlank : ∀ c ∈ word.toList, Text.isBlank c = false
  notComment : '#' ∉ word.toList
  delimited : (∃ c, isDelimiter separator c = true ∧ word.toList = [c]) ∨
    ∀ c ∈ word.toList, isDelimiter separator c = false

/-- A word that does not end the directive it stands in. -/
structure IsPlain (separator : Char) (word : String) : Prop extends IsWord separator word where
  notStart : Directive.starts word = false

/-- A delimiter is told from other words by its length. -/
theorem isWord_iff {separator : Char} {word : String} :
    IsWord separator word ↔ word ≠ "" ∧ '#' ∉ word.toList ∧
      (word.toList.all fun c => !Text.isBlank c) = true ∧
      (word.toList.length = 1 ∨ (word.toList.all fun c => !isDelimiter separator c) = true) := by
  have hall : ∀ p : Char → Bool, (word.toList.all fun c => !p c) = true ↔
      ∀ c ∈ word.toList, p c = false := by
    intro p
    simp
  rw [hall, hall]
  constructor
  · rintro ⟨hne, hblank, hcomment, ⟨c, -, hc⟩ | hd⟩
    · exact ⟨hne, hcomment, hblank, .inl (by rw [hc]; rfl)⟩
    · exact ⟨hne, hcomment, hblank, .inr hd⟩
  · rintro ⟨hne, hcomment, hblank, hlen | hd⟩
    · obtain ⟨c, hc⟩ := List.length_eq_one_iff.1 hlen
      refine ⟨hne, hblank, hcomment, ?_⟩
      cases hd : isDelimiter separator c with
      | true => exact .inl ⟨c, hd, hc⟩
      | false => exact .inr (by rw [hc]; simpa using hd)
    · exact ⟨hne, hblank, hcomment, .inr hd⟩

instance (separator : Char) (word : String) : Decidable (IsWord separator word) :=
  decidable_of_iff _ isWord_iff.symm

instance (separator : Char) (word : String) : Decidable (IsPlain separator word) :=
  decidable_of_iff (IsWord separator word ∧ Directive.starts word = false)
    ⟨fun h => ⟨h.1, h.2⟩, fun h => ⟨h.toIsWord, h.notStart⟩⟩

/-- Where one word ends and the next can begin. -/
def IsBreak (separator c : Char) : Prop :=
  Text.isBlank c = true ∨ isDelimiter separator c = true

/-! ## Cutting at a break -/

section
variable {separator : Char}

theorem close_append (run : List Char) (u v : List (List Char)) :
    close run (u ++ v) = close run u ++ v := by
  unfold close
  split <;> rfl

theorem runs_cons_break {c : Char} (hc : IsBreak separator c) (t : List Char) :
    runs separator (c :: t) = ([], split separator (c :: t)) := by
  rcases hc with hc | hc
  · simp [runs, split, hc, close]
  · by_cases hb : Text.isBlank c = true <;> simp [runs, split, hc, hb, close]

theorem runs_append {c : Char} (hc : IsBreak separator c) (s t : List Char) :
    runs separator (s ++ c :: t) =
      ((runs separator s).1, (runs separator s).2 ++ split separator (c :: t)) := by
  induction s with
  | nil => rw [List.nil_append, runs_cons_break hc]; rfl
  | cons a s ih =>
    rw [List.cons_append, runs, runs, ih]
    simp only [close_append]
    split
    · rfl
    · split <;> rfl

theorem split_append {c : Char} (hc : IsBreak separator c) (s t : List Char) :
    split separator (s ++ c :: t) = split separator s ++ split separator (c :: t) := by
  show close _ _ = close _ _ ++ _
  rw [runs_append hc, close_append]

theorem words_append {c : Char} (hc : IsBreak separator c) (s t : List Char) :
    words separator (s ++ c :: t) = words separator s ++ words separator (c :: t) := by
  rw [words, split_append hc, List.map_append]
  rfl

@[simp] theorem words_nil : words separator [] = [] := rfl

theorem words_cons_blank {c : Char} (hc : Text.isBlank c = true) (t : List Char) :
    words separator (c :: t) = words separator t := by
  simp [words, split, runs, hc, close]

theorem words_cons_delimiter {c : Char} (hb : Text.isBlank c = false)
    (hc : isDelimiter separator c = true) (t : List Char) :
    words separator (c :: t) = String.singleton c :: words separator t := by
  have h : String.ofList [c] = String.singleton c := by rw [← String.toList_inj]; simp
  simp [words, split, runs, hb, hc, close, h]

theorem words_blanks_append {gap : List Char} (h : ∀ c ∈ gap, Text.isBlank c = true)
    (t : List Char) : words separator (gap ++ t) = words separator t := by
  induction gap with
  | nil => rfl
  | cons c gap ih =>
    rw [List.cons_append, words_cons_blank (h c List.mem_cons_self)]
    exact ih fun d hd => h d (List.mem_cons_of_mem _ hd)

/-- A text can be cut at blanks, which then are dropped. -/
theorem words_append_blanks {gap : List Char} (hne : gap ≠ [])
    (h : ∀ c ∈ gap, Text.isBlank c = true) (s t : List Char) :
    words separator (s ++ (gap ++ t)) = words separator s ++ words separator t := by
  rw [← words_blanks_append h t]
  obtain ⟨c, gap, rfl⟩ := List.exists_cons_of_ne_nil hne
  exact words_append (.inl (h c List.mem_cons_self)) s _

theorem isBlank_space : ∀ c ∈ " ".toList, Text.isBlank c = true := by
  intro c hc
  rw [List.mem_singleton.1 hc]
  decide

theorem words_intercalate (args : List String) :
    words separator (" ".intercalate args).toList =
      args.flatMap fun arg => words separator arg.toList := by
  induction args with
  | nil => rfl
  | cons arg args ih =>
    cases args with
    | nil => rw [String.intercalate_singleton, List.flatMap_singleton]
    | cons next args =>
      rw [String.intercalate_cons_cons, String.toList_append, String.toList_append,
        List.append_assoc, words_append_blanks (by decide) isBlank_space, ih]
      rfl

/-! ## Words of texts -/

theorem runs_of_forall {s : List Char}
    (h : ∀ c ∈ s, Text.isBlank c = false ∧ isDelimiter separator c = false) :
    runs separator s = (s, []) := by
  induction s with
  | nil => rfl
  | cons c s ih =>
    rw [runs, ih fun d hd => h d (List.mem_cons_of_mem _ hd)]
    simp [h c List.mem_cons_self]

theorem words_of_forall {s : List Char} (hne : s ≠ [])
    (h : ∀ c ∈ s, Text.isBlank c = false ∧ isDelimiter separator c = false) :
    words separator s = [String.ofList s] := by
  have hs : split separator s = [s] := by
    show close _ _ = _
    rw [runs_of_forall h]
    simp [close, hne]
  rw [words, hs, List.map_singleton]

theorem words_of_isWord {w : String} (h : IsWord separator w) :
    words separator w.toList = [w] := by
  have hne : w.toList ≠ [] := fun he => h.ne_empty (by rw [← String.ofList_toList (s := w), he])
  rcases h.delimited with ⟨c, hc, hw⟩ | hd
  · rw [hw, words_cons_delimiter (h.notBlank c (by simp [hw])) hc, words_nil]
    rw [show String.singleton c = w by rw [← String.toList_inj, hw]; simp]
  · rw [words_of_forall hne fun c hc => ⟨h.notBlank c hc, hd c hc⟩, String.ofList_toList]

/-- Cutting loses nothing but the blanks. -/
theorem flatten_split (s : List Char) :
    (split separator s).flatten = s.filter fun c => !Text.isBlank c := by
  have flatten_close : ∀ run words, (close run words).flatten = run ++ words.flatten := by
    intro run words
    cases run <;> rfl
  show (close _ _).flatten = _
  rw [flatten_close]
  induction s with
  | nil => rfl
  | cons c s ih =>
    rw [runs, List.filter_cons]
    by_cases hb : Text.isBlank c = true
    · simp [hb, flatten_close, ih]
    · by_cases hd : isDelimiter separator c = true
      · simp [hb, hd, flatten_close, ih]
      · simp [hb, hd, ih]

/-- A delimiter is cut off as a word of its own. -/
def IsSolid (separator : Char) (w : List Char) : Prop :=
  w ≠ [] ∧ ((∃ c, isDelimiter separator c = true ∧ w = [c]) ∨
    ∀ c ∈ w, isDelimiter separator c = false)

theorem isSolid_of_mem_close {run w : List Char} {words : List (List Char)}
    (hr : ∀ c ∈ run, isDelimiter separator c = false) (hw : ∀ w ∈ words, IsSolid separator w)
    (h : w ∈ close run words) : IsSolid separator w := by
  unfold close at h
  split at h
  · exact hw w h
  · next he =>
    rcases List.mem_cons.1 h with rfl | h
    · exact ⟨by simpa using he, .inr hr⟩
    · exact hw w h

theorem runs_solid (s : List Char) :
    (∀ c ∈ (runs separator s).1, isDelimiter separator c = false) ∧
      ∀ w ∈ (runs separator s).2, IsSolid separator w := by
  induction s with
  | nil => simp [runs]
  | cons a s ih =>
    have closed := fun w => isSolid_of_mem_close (w := w) ih.1 ih.2
    rw [runs]
    by_cases hb : Text.isBlank a = true
    · simp only [hb, if_true]
      exact ⟨by simp, closed⟩
    · by_cases hd : isDelimiter separator a = true
      · simp only [hb, hd, if_true]
        refine ⟨by simp, fun w hw => ?_⟩
        rcases List.mem_cons.1 hw with rfl | hw
        · exact ⟨by simp, .inl ⟨a, hd, rfl⟩⟩
        · exact closed w hw
      · simp only [hb, hd]
        refine ⟨fun c hc => ?_, ih.2⟩
        rcases List.mem_cons.1 hc with rfl | hc
        · simpa using hd
        · exact ih.1 c hc

theorem isSolid_of_mem_split {s w : List Char} (h : w ∈ split separator s) :
    IsSolid separator w :=
  isSolid_of_mem_close (runs_solid s).1 (runs_solid s).2 h

theorem mem_of_mem_split {s w : List Char} (h : w ∈ split separator s) {c : Char} (hc : c ∈ w) :
    c ∈ s ∧ Text.isBlank c = false := by
  have hf : c ∈ (split separator s).flatten := List.mem_flatten.2 ⟨w, h, hc⟩
  rw [flatten_split, List.mem_filter] at hf
  simpa using hf

theorem mem_of_mem_words {s : List Char} {w : String} {c : Char}
    (h : w ∈ words separator s) (hc : c ∈ w.toList) : c ∈ s := by
  obtain ⟨l, hl, rfl⟩ := List.mem_map.1 h
  rw [String.toList_ofList] at hc
  exact (mem_of_mem_split hl hc).1

theorem isWord_of_mem_words {s : List Char} {w : String} (hs : '#' ∉ s)
    (h : w ∈ words separator s) : IsWord separator w := by
  obtain ⟨l, hl, rfl⟩ := List.mem_map.1 h
  obtain ⟨hne, hd⟩ := isSolid_of_mem_split hl
  refine ⟨fun he => hne ?_, ?_, ?_, ?_⟩
  · rw [← String.toList_ofList (l := l), he]
    rfl
  · simpa using fun c hc => (mem_of_mem_split hl hc).2
  · simpa using fun hc => hs (mem_of_mem_split hl hc).1
  · simpa using hd

theorem mem_intersperse {v w : String} {ws : List String} (h : w ∈ ws) :
    w ∈ ws.intersperse v := by
  fun_induction List.intersperse v ws with
  | case1 => exact h
  | case2 => exact h
  | case3 x y zs ih =>
    rcases List.mem_cons.1 h with rfl | h
    · exact List.mem_cons_self
    · exact List.mem_cons_of_mem _ (List.mem_cons_of_mem _ (ih h))

theorem eq_or_mem_of_mem_intersperse {v w : String} {ws : List String}
    (h : w ∈ ws.intersperse v) : w = v ∨ w ∈ ws := by
  fun_induction List.intersperse v ws with
  | case1 => exact .inr h
  | case2 => exact .inr h
  | case3 x y zs ih =>
    rcases List.mem_cons.1 h with rfl | h
    · exact .inr List.mem_cons_self
    · rcases List.mem_cons.1 h with rfl | h
      · exact .inl rfl
      · exact (ih h).imp id (List.mem_cons_of_mem _)

theorem ofLine_of_notMem {line : String} (h : '#' ∉ line.toList) :
    ofLine separator line = (words separator line.toList, none) := by
  unfold ofLine
  rw [Text.cut_eq_none_iff.2 h]
  rfl

theorem isWord_of_ofLine {line w : String} (h : w ∈ (ofLine separator line).1) :
    IsWord separator w := by
  unfold ofLine at h
  cases hc : Text.cut '#' line.toList with
  | none =>
    rw [hc] at h
    exact isWord_of_mem_words (Text.cut_eq_none_iff.1 hc) h
  | some p =>
    obtain ⟨before, after⟩ := p
    rw [hc] at h
    exact isWord_of_mem_words (Text.cut_eq_some_iff.1 hc).2 h

end

end Word

theorem Text.notMem_intercalate {c : Char} {mark : String} {pieces : List String}
    (hm : c ∉ mark.toList) (h : ∀ p ∈ pieces, c ∉ p.toList) :
    c ∉ (mark.intercalate pieces).toList := by
  induction pieces with
  | nil => simp
  | cons p pieces ih =>
    have hp := h p List.mem_cons_self
    have ih := ih fun q hq => h q (List.mem_cons_of_mem _ hq)
    cases pieces with
    | nil => simpa using hp
    | cons q pieces =>
      rw [String.intercalate_cons_cons, String.toList_append, String.toList_append,
        List.mem_append, List.mem_append]
      rintro ((hc | hc) | hc)
      · exact hp hc
      · exact hm hc
      · exact ih hc

/-! ## Identifier patterns -/

namespace Identifier

/-- The marks of the language. -/
def marks : List Char := ['-', '!', '/', '#', ':', '@', '\x7b', '\x7d', '(', ')', ',', ';']

/-- None of the marks can occur in a pattern. -/
theorem isPatternChar_of_mem {c : Char} (h : c ∈ marks) : isPatternChar c = false := by
  have hall : (marks.all fun c => !isPatternChar c) = true := by decide
  simpa using List.all_eq_true.1 hall c h

theorem notMem_of_isPattern {w : String} (hw : isPattern w = true) {c : Char} (h : c ∈ marks) :
    c ∉ w.toList := by
  intro hc
  have := (isPattern_iff w).1 hw c hc
  rw [isPatternChar_of_mem h] at this
  cases this

end Identifier

theorem Directive.starts_of_isPattern {w : String} (hw : Identifier.isPattern w = true) :
    Directive.starts w = false := by
  have hd := Identifier.notMem_of_isPattern hw (c := '-') (by decide)
  have ha := Identifier.notMem_of_isPattern hw (c := '@') (by decide)
  simp only [Directive.starts, Bool.or_eq_false_iff, beq_eq_false_iff_ne]
  constructor
  · intro h
    exact hd (List.mem_of_mem_head? h)
  · rintro rfl
    exact ha (by decide)

end KeepRules
