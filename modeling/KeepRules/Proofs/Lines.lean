import KeepRules.Proofs.Reading

/-! # Lines and the comments between them

Texts that are written line by line are read line by line, and what is read of each line is known
from how it is written.

* `Text.lines_append`: a line and its line feed come off the front of a text, less a carriage
  return at the end of the line (`Text.chomp`). `Text.lines_of_start` is about texts of which only
  the start is known.
* `Word.Spells`: the words of a line without comment, put together from the words of its parts.
* `Cursor.Holds`: the words ahead of a cursor, each with the comments that are collected on the way
  to it (`Word.marked`). `Cursor.Holds.passes` reads words off the front. -/

set_option autoImplicit false

namespace KeepRules

/-! ## Lines of texts -/

namespace Text

/-- A line without one carriage return at its end. -/
def chomp (line : List Char) : List Char :=
  match line.reverse with
  | '\r' :: rest => rest.reverse
  | _ => line

theorem withoutLineEnding_append (line : List Char) :
    withoutLineEnding (line ++ ['\n']) = chomp line := by
  obtain ⟨s, rfl⟩ : ∃ s, line = s.reverse := ⟨line.reverse, by simp⟩
  unfold withoutLineEnding chomp
  rw [List.reverse_append, List.reverse_reverse]
  cases s with
  | nil => rfl
  | cons c s =>
    by_cases hc : c = '\r'
    · subst hc
      rfl
    · have h₁ : ∀ rest, c :: s ≠ '\r' :: rest := fun rest h => hc (List.cons.inj h).1
      rw [List.reverse_singleton, List.singleton_append]
      split
      · next h => exact absurd (List.cons.inj h).2 (h₁ _)
      · next h =>
        rw [← (List.cons.inj h).2]
        split
        · next h' => exact absurd h' (h₁ _)
        · rfl
      · next h => exact absurd rfl (h _)

theorem chomp_append (line : List Char) : chomp (line ++ ['\r']) = line := by
  simp [chomp]

theorem chomp_eq_self {line : List Char} : chomp line = line ↔ line.getLast? ≠ some '\r' := by
  rcases List.eq_nil_or_concat line with rfl | ⟨l, c, rfl⟩
  · simp [chomp]
  · by_cases hc : c = '\r'
    · subst hc
      simp [chomp]
    · simp only [List.concat_eq_append, List.getLast?_append, List.getLast?_singleton]
      unfold chomp
      simp [hc]

theorem chunks_append {α : Type} {p : α → Bool} {a : α} {l : List α} (ha : p a = true)
    (hl : ∀ b ∈ l, p b = false) (t : List α) :
    chunks p (l ++ a :: t) = (l ++ [a]) :: chunks p t := by
  induction l with
  | nil => simp [chunks, ha]
  | cons b l ih =>
    have hb := hl b List.mem_cons_self
    rw [List.cons_append, chunks, ih fun d hd => hl d (List.mem_cons_of_mem _ hd)]
    simp [hb]

theorem lines_append {line : String} (h : '\n' ∉ line.toList) (rest : String) :
    lines (line ++ "\n" ++ rest) = String.ofList (chomp line.toList) :: lines rest := by
  have hl : ∀ b ∈ line.toList, (b == '\n') = false := by
    intro b hb
    rw [beq_eq_false_iff_ne]
    exact fun he => h (he ▸ hb)
  have hs : (line ++ "\n" ++ rest).toList = line.toList ++ '\n' :: rest.toList := by simp
  rw [lines, hs, chunks_append (by decide) hl, List.map_cons, withoutLineEnding_append]
  rfl

/-- A text is a single line, or its first line ends with a line feed. -/
theorem notMem_or_eq_append (text : String) :
    '\n' ∉ text.toList ∨ ∃ line rest, '\n' ∉ line.toList ∧ text = line ++ "\n" ++ rest := by
  by_cases h : '\n' ∈ text.toList
  · obtain ⟨before, after, htext, hb⟩ := List.eq_append_cons_of_mem h
    refine .inr ⟨.ofList before, .ofList after, by simpa using hb, ?_⟩
    rw [← String.toList_inj]
    simp [htext]
  · exact .inl h

/-- Induction on a text line by line, from its front. -/
@[elab_as_elim]
theorem lines_induction {motive : String → Prop}
    (single : ∀ text, '\n' ∉ text.toList → motive text)
    (append : ∀ line rest, '\n' ∉ line.toList → motive rest → motive (line ++ "\n" ++ rest))
    (text : String) : motive text := by
  induction hn : text.toList.length using Nat.strongRecOn generalizing text with
  | ind n ih =>
    rcases notMem_or_eq_append text with h | ⟨line, rest, h, rfl⟩
    · exact single text h
    · refine append line rest h (ih rest.toList.length ?_ rest rfl)
      rw [← hn]
      simp
      omega

/-- Lines that are written one after the other are read one after the other. -/
theorem lines_join {ls : List String} (h : ∀ l ∈ ls, '\n' ∉ l.toList) (rest : String) :
    lines (String.join (ls.map (· ++ "\n")) ++ rest) =
      ls.map (fun l => String.ofList (chomp l.toList)) ++ lines rest := by
  induction ls with
  | nil => simp
  | cons l ls ih =>
    have hl := h l List.mem_cons_self
    have ih := ih fun m hm => h m (List.mem_cons_of_mem _ hm)
    rw [List.map_cons, String.join_cons, List.map_cons, List.cons_append, ← ih,
      ← lines_append hl, String.append_assoc]

theorem chunks_append_chunks {p : Char → Bool} {a : Char} (ha : p a = true) (l t : List Char) :
    chunks p (l ++ a :: t) = chunks p (l ++ [a]) ++ chunks p t := by
  induction l with
  | nil => simp [chunks, ha]
  | cons b l ih =>
    rw [List.cons_append, List.cons_append, chunks, chunks, ih]
    split
    · rfl
    · cases hc : chunks p (l ++ [a]) with
      | nil =>
        have hf := flatten_chunks p (l ++ [a])
        rw [hc] at hf
        simp at hf
      | cons piece pieces => rfl

/-- A line feed ends the lines before it, whatever they are. -/
theorem lines_append_lines (text rest : String) :
    lines (text ++ "\n" ++ rest) = lines (text ++ "\n") ++ lines rest := by
  have hs : (text ++ "\n" ++ rest).toList = text.toList ++ '\n' :: rest.toList := by simp
  have ht : (text ++ "\n").toList = text.toList ++ ['\n'] := by simp
  rw [lines, lines, lines, hs, ht, chunks_append_chunks (by decide), List.map_append]

/-- What a text starts with is the start of its first line. -/
theorem lines_of_start {start : String} (hn : '\n' ∉ start.toList)
    (hr : start.toList.getLast? ≠ some '\r') (text rest : String) :
    ∃ line more, lines (start ++ text ++ "\n" ++ rest) = (start ++ line) :: more := by
  obtain ⟨line, more, hline, heq⟩ : ∃ line more : String, '\n' ∉ line.toList ∧
      text ++ "\n" ++ rest = line ++ "\n" ++ more := by
    rcases notMem_or_eq_append text with h | ⟨line, more, h, rfl⟩
    · exact ⟨text, rest, h, rfl⟩
    · exact ⟨line, more ++ "\n" ++ rest, h, by simp only [String.append_assoc]⟩
  have hlines := @lines_append (start ++ line) (by simp [hn, hline]) more
  have hsame : start ++ text ++ "\n" ++ rest = start ++ line ++ "\n" ++ more := by
    simp only [String.append_assoc] at heq ⊢
    rw [heq]
  rw [hsame, hlines]
  by_cases hl : line.toList.getLast? = some '\r'
  · obtain ⟨l, hl⟩ := List.getLast?_eq_some_iff.1 hl
    refine ⟨.ofList l, lines more, ?_⟩
    rw [String.toList_append, hl, ← List.append_assoc, chomp_append]
    congr 1
    rw [← String.toList_inj]
    simp
  · refine ⟨line, lines more, ?_⟩
    have hlast : (start ++ line).toList.getLast? ≠ some '\r' := by
      rw [String.toList_append, List.getLast?_append]
      cases hg : line.toList.getLast? with
      | none => simpa using hr
      | some d =>
        rw [hg] at hl
        simpa using hl
    rw [chomp_eq_self.2 hlast, String.ofList_toList]

theorem chunks_of_forall {α : Type} {p : α → Bool} {l : List α} (hne : l ≠ [])
    (h : ∀ c ∈ l, p c = false) : chunks p l = [l] := by
  induction l with
  | nil => exact absurd rfl hne
  | cons c l ih =>
    have hc := h c List.mem_cons_self
    rw [chunks]
    cases l with
    | nil => simp [chunks, hc]
    | cons d l =>
      rw [ih (by simp) fun e he => h e (List.mem_cons_of_mem _ he)]
      simp [hc]

theorem withoutLineEnding_of_notMem {l : List Char} (h : '\n' ∉ l) : withoutLineEnding l = l := by
  unfold withoutLineEnding
  split
  · next rest he =>
    rw [← List.mem_reverse, he] at h
    exact absurd List.mem_cons_self h
  · next rest _ he =>
    rw [← List.mem_reverse, he] at h
    exact absurd List.mem_cons_self h
  · rfl

/-- A text without a line feed is one line, unless it is empty. -/
theorem lines_of_notMem {text : String} (h : '\n' ∉ text.toList) (hne : text ≠ "") :
    lines text = [text] := by
  have hne' : text.toList ≠ [] := by simpa using hne
  have hp : ∀ c ∈ text.toList, (c == '\n') = false := by
    intro c hc
    rw [beq_eq_false_iff_ne]
    exact fun he => h (he ▸ hc)
  rw [lines, chunks_of_forall hne' hp, List.map_singleton, withoutLineEnding_of_notMem h,
    String.ofList_toList]

theorem mem_of_mem_lines {text line : String} (h : line ∈ lines text) {c : Char}
    (hc : c ∈ line.toList) : c ∈ text.toList := by
  obtain ⟨piece, hp, rfl⟩ := List.mem_map.1 h
  rw [String.toList_ofList] at hc
  have hsub : c ∈ piece := by
    unfold withoutLineEnding at hc
    split at hc
    · next rest he =>
      rw [← List.mem_reverse, he]
      simpa using .inr (.inr (List.mem_reverse.1 hc))
    · next rest _ he =>
      rw [← List.mem_reverse, he]
      simpa using .inr (List.mem_reverse.1 hc)
    · exact hc
  rw [← flatten_chunks (· == '\n') text.toList]
  exact List.mem_flatten.2 ⟨piece, hp, hsub⟩

end Text

/-! ## Words of written lines -/

namespace Word

/-- The text is part of one line, has no comment, and is cut into the words. -/
structure Spells (separator : Char) (text : String) (ws : List String) : Prop where
  oneLine : '\n' ∉ text.toList
  notComment : '#' ∉ text.toList
  words : words separator text.toList = ws

section
variable {separator : Char}

theorem Spells.empty : Spells separator "" [] := ⟨by simp, by simp, rfl⟩

theorem Spells.word {w : String} (h : IsWord separator w) : Spells separator w [w] := by
  refine ⟨fun hn => ?_, h.notComment, words_of_isWord h⟩
  have := h.notBlank '\n' hn
  revert this
  decide

theorem Spells.space {a b : String} {u v : List String} (ha : Spells separator a u)
    (hb : Spells separator b v) : Spells separator (a ++ " " ++ b) (u ++ v) := by
  have hs : (a ++ " " ++ b).toList = a.toList ++ ' ' :: b.toList := by simp
  have hblank : Text.isBlank ' ' = true := by decide
  refine ⟨?_, ?_, ?_⟩
  · simp [ha.oneLine, hb.oneLine]
  · simp [ha.notComment, hb.notComment]
  · rw [hs, words_append (.inl hblank), words_cons_blank hblank, ha.words, hb.words]

theorem Spells.delimiter {a b s : String} {u v : List String} {d : Char}
    (ha : Spells separator a u) (hs : s = String.singleton d) (hd : isDelimiter separator d = true)
    (hn : Text.isBlank d = false) (hc : d ≠ '#') (hb : Spells separator b v) :
    Spells separator (a ++ s ++ b) (u ++ s :: v) := by
  subst hs
  have hs : (a ++ String.singleton d ++ b).toList = a.toList ++ d :: b.toList := by simp
  have hne : d ≠ '\n' := by
    rintro rfl
    revert hn
    decide
  refine ⟨?_, ?_, ?_⟩
  · simp [ha.oneLine, hb.oneLine, Ne.symm hne]
  · simp [ha.notComment, hb.notComment, Ne.symm hc]
  · rw [hs, words_append (.inr hd), words_cons_delimiter hn hd, ha.words, hb.words]

/-- Words between commas. -/
theorem Spells.commas {ws : List String} (h : ∀ w ∈ ws, IsWord separator w) :
    Spells separator (",".intercalate ws) (ws.intersperse ",") := by
  induction ws with
  | nil => exact .empty
  | cons w ws ih =>
    have hword := Spells.word (h w List.mem_cons_self)
    have ih := ih fun v hv => h v (List.mem_cons_of_mem _ hv)
    cases ws with
    | nil => simpa using hword
    | cons v ws =>
      rw [String.intercalate_cons_cons, List.intersperse_cons_cons]
      exact hword.delimiter (d := ',') rfl (by simp [isDelimiter, delimiters]) (by decide)
        (by decide) ih

theorem Spells.ofLine {line : String} {ws : List String} (h : Spells separator line ws) :
    ofLine separator line = (ws, none) := by
  rw [ofLine_of_notMem h.notComment, h.words]

theorem takeWhile_append_of_notMem {s : List Char} (h : '#' ∉ s) (t : List Char) :
    (s ++ t).takeWhile (fun c => c != '#') = s ++ t.takeWhile fun c => c != '#' := by
  refine List.takeWhile_append_of_pos fun c hm => ?_
  rw [bne_iff_ne]
  exact fun he => h (he ▸ hm)

/-- The words before the comment of a line. -/
theorem ofLine_fst (line : String) :
    (Word.ofLine separator line).1 =
      Word.words separator (line.toList.takeWhile fun c => c != '#') := by
  unfold Word.ofLine
  cases hc : Text.cut '#' line.toList with
  | none =>
    have h := takeWhile_append_of_notMem (Text.cut_eq_none_iff.1 hc) []
    rw [List.append_nil, List.takeWhile_nil, List.append_nil] at h
    rw [h]
    rfl
  | some p =>
    obtain ⟨before, after⟩ := p
    obtain ⟨hl, h⟩ := Text.cut_eq_some_iff.1 hc
    rw [hl, takeWhile_append_of_notMem h]
    simp [Word.words]

/-- A carriage return at the end of a line adds nothing to its words. -/
theorem ofLine_chomp_fst (separator : Char) (line : String) :
    (ofLine separator (String.ofList (Text.chomp line.toList))).1 = (ofLine separator line).1 := by
  by_cases hl : line.toList.getLast? = some '\r'
  · obtain ⟨l, hl⟩ := List.getLast?_eq_some_iff.1 hl
    rw [ofLine_fst, ofLine_fst, hl, Text.chomp_append, String.toList_ofList]
    by_cases hm : '#' ∈ l
    · obtain ⟨before, after, rfl⟩ := List.append_of_mem hm
      rw [List.append_assoc, List.cons_append]
      simp [List.takeWhile_append]
    · have hblank : Text.isBlank '\r' = true := by decide
      have hl' := takeWhile_append_of_notMem hm []
      rw [List.append_nil, List.takeWhile_nil, List.append_nil] at hl'
      rw [hl', takeWhile_append_of_notMem hm]
      show words separator l = words separator (l ++ ['\r'])
      rw [words_append (.inl hblank), words_cons_blank hblank, words_nil, List.append_nil]
  · rw [Text.chomp_eq_self.2 hl, String.ofList_toList]

theorem mem_of_mem_ofLine {line w : String} (h : w ∈ (Word.ofLine separator line).1) {c : Char}
    (hc : c ∈ w.toList) : c ∈ line.toList := by
  rw [ofLine_fst] at h
  exact (List.takeWhile_sublist _).subset (mem_of_mem_words h hc)

/-- Words in front of a text whose comment is not known. -/
theorem Spells.ofLine_append {a : String} {u : List String} {d : Char} (ha : Spells separator a u)
    (hd : IsBreak separator d) (hc : d ≠ '#') (t : String) :
    (Word.ofLine separator (a ++ String.singleton d ++ t)).1 =
      u ++ Word.words separator (d :: t.toList.takeWhile fun c => c != '#') := by
  have hs : (a ++ String.singleton d ++ t).toList = a.toList ++ d :: t.toList := by simp
  rw [ofLine_fst, hs, takeWhile_append_of_notMem ha.notComment,
    List.takeWhile_cons_of_pos (by simpa using hc), words_append hd, ha.words]

theorem Spells.ofLine_space {a : String} {u : List String} (ha : Spells separator a u)
    (t : String) :
    (Word.ofLine separator (a ++ " " ++ t)).1 = u ++ (Word.ofLine separator t).1 := by
  have hblank : Text.isBlank ' ' = true := by decide
  rw [show " " = String.singleton ' ' from rfl, ha.ofLine_append (.inl hblank) (by decide),
    words_cons_blank hblank, ofLine_fst]

theorem Spells.ofLine_delimiter {a s : String} {u : List String} {d : Char}
    (ha : Spells separator a u) (hs : s = String.singleton d) (hd : isDelimiter separator d = true)
    (hn : Text.isBlank d = false) (hc : d ≠ '#') (t : String) :
    (Word.ofLine separator (a ++ s ++ t)).1 = u ++ s :: (Word.ofLine separator t).1 := by
  subst hs
  rw [ha.ofLine_append (.inr hd) hc, words_cons_delimiter hn hd, ofLine_fst]

/-- A carriage return at the end of a line is a blank like any other. -/
theorem Spells.chomp {line : String} {ws : List String} (h : Spells separator line ws) :
    Spells separator (String.ofList (Text.chomp line.toList)) ws := by
  by_cases hl : line.toList.getLast? = some '\r'
  · obtain ⟨l, hl⟩ := List.getLast?_eq_some_iff.1 hl
    rw [hl, Text.chomp_append]
    obtain ⟨h₁, h₂, h₃⟩ := h
    rw [hl] at h₁ h₂ h₃
    have hblank : Text.isBlank '\r' = true := by decide
    rw [words_append (.inl hblank), words_cons_blank hblank, words_nil, List.append_nil] at h₃
    refine ⟨?_, ?_, ?_⟩
    · rw [String.toList_ofList]
      exact fun hm => h₁ (List.mem_append_left _ hm)
    · rw [String.toList_ofList]
      exact fun hm => h₂ (List.mem_append_left _ hm)
    · rw [String.toList_ofList]
      exact h₃
  · rw [Text.chomp_eq_self.2 hl, String.ofList_toList]
    exact h

end

/-- What is read of a line: its words and its comment, less a carriage return at its end. -/
def readLine (separator : Char) (line : String) : List String × Option String :=
  ofLine separator (String.ofList (Text.chomp line.toList))

theorem Spells.readLine {separator : Char} {line : String} {ws : List String}
    (h : Spells separator line ws) : readLine separator line = (ws, none) := h.chomp.ofLine

/-! ## Words with comments -/

/-- The words of lines, each with the comments of the lines since the word before. What stands in
front of the first line is given. -/
def marked (pending : Option String) :
    List (List String × Option String) → List (Option String × String)
  | [] => []
  | ([], comment) :: rest => marked (Frame.joinComments pending comment) rest
  | (w :: ws, comment) :: rest =>
    (Frame.joinComments pending comment, w) :: ws.map (Prod.mk none) ++ marked none rest

theorem map_snd_marked (pending : Option String) (ls : List (List String × Option String)) :
    (marked pending ls).map Prod.snd = ls.flatMap Prod.fst := by
  fun_induction marked pending ls with
  | case1 => rfl
  | case2 pending comment rest ih => exact ih
  | case3 pending w ws comment rest ih =>
    simp [ih, Function.comp_def]

/-- Lines without comments add their words. -/
theorem marked_words (lines : List (List String)) (rest : List (List String × Option String)) :
    marked none (lines.map (fun ws => (ws, none)) ++ rest) =
      lines.flatten.map (Prod.mk none) ++ marked none rest := by
  induction lines with
  | nil => rfl
  | cons ws lines ih =>
    rw [List.map_cons, List.cons_append, List.flatten_cons, List.map_append, List.append_assoc,
      ← ih]
    cases ws <;> rfl

/-- The words of a text with their comments. -/
def ofText (separator : Char) (text : String) : List (Option String × String) :=
  marked none ((Text.lines text).map (ofLine separator))

theorem map_snd_ofText (separator : Char) (text : String) :
    (ofText separator text).map Prod.snd =
      (Text.lines text).flatMap fun line => (ofLine separator line).1 := by
  rw [ofText, map_snd_marked, List.flatMap_map]

/-- The words of a text up to the end of a line, and those of the rest. -/
theorem map_snd_ofText_append (separator : Char) (text rest : String) :
    (ofText separator (text ++ "\n" ++ rest)).map Prod.snd =
      (ofText separator (text ++ "\n")).map Prod.snd ++ (ofText separator rest).map Prod.snd := by
  simp only [map_snd_ofText]
  rw [Text.lines_append_lines, List.flatMap_append]

/-- A line feed at the end of a text adds nothing to its words. -/
theorem map_snd_ofText_newline (separator : Char) (text : String) :
    (ofText separator (text ++ "\n")).map Prod.snd = (ofText separator text).map Prod.snd := by
  simp only [map_snd_ofText]
  have hempty : Text.lines "" = [] := rfl
  induction text using Text.lines_induction with
  | single text hnot =>
    have hlines := Text.lines_append hnot ""
    rw [String.append_empty, hempty] at hlines
    rw [hlines, List.flatMap_cons, List.flatMap_nil, List.append_nil, ofLine_chomp_fst]
    by_cases hne : text = ""
    · subst hne
      rfl
    · rw [Text.lines_of_notMem hnot hne, List.flatMap_cons, List.flatMap_nil, List.append_nil]
  | append line rest hline ih =>
    rw [Text.lines_append hline, String.append_assoc, Text.lines_append hline, List.flatMap_cons,
      List.flatMap_cons, ih]

/-- Lines without comments add their words, each without comments. -/
theorem marked_of_notMem (separator : Char) {lines : List String}
    (h : ∀ l ∈ lines, '#' ∉ l.toList) (rest : List (List String × Option String)) :
    marked none (lines.map (ofLine separator) ++ rest) =
      (lines.flatMap fun l => (ofLine separator l).1).map (Prod.mk none) ++ marked none rest := by
  have hlines : lines.map (ofLine separator) =
      (lines.map fun l => (ofLine separator l).1).map fun ws => (ws, none) := by
    rw [List.map_map]
    refine List.map_congr_left fun l hl => ?_
    rw [Function.comp_apply, ofLine_of_notMem (h l hl)]
  rw [hlines, marked_words, ← List.flatMap_def]

theorem ofText_of_notMem {separator : Char} {text : String} (h : '#' ∉ text.toList) :
    ofText separator text = ((ofText separator text).map Prod.snd).map (Prod.mk none) := by
  have hl : ∀ l ∈ Text.lines text, '#' ∉ l.toList := fun l hl hm => h (Text.mem_of_mem_lines hl hm)
  have := marked_of_notMem separator hl []
  rw [List.append_nil] at this
  rw [map_snd_ofText, ofText, this, marked, List.append_nil]

/-- A text without comments, and a text after it. -/
theorem ofText_append_of_notMem {separator : Char} {text : String} (h : '#' ∉ text.toList)
    (rest : String) :
    ofText separator (text ++ "\n" ++ rest) =
      ((ofText separator text).map Prod.snd).map (Prod.mk none) ++ ofText separator rest := by
  have hl : ∀ l ∈ Text.lines (text ++ "\n"), '#' ∉ l.toList := by
    intro l hl hm
    have := Text.mem_of_mem_lines hl hm
    simp [h] at this
  rw [← map_snd_ofText_newline, map_snd_ofText, ofText, ofText, Text.lines_append_lines,
    List.map_append, marked_of_notMem separator hl]

theorem mem_of_mem_ofText {separator : Char} {text w : String}
    (h : w ∈ (ofText separator text).map Prod.snd) {c : Char} (hc : c ∈ w.toList) :
    c ∈ text.toList := by
  rw [map_snd_ofText] at h
  obtain ⟨line, hl, hw⟩ := List.mem_flatMap.1 h
  exact Text.mem_of_mem_lines hl (mem_of_mem_ofLine hw hc)

/-- The first word of a text is that of its first line, if this has any. -/
theorem ofText_of_lines {separator : Char} {text line w : String} {more ws : List String}
    (hl : Text.lines text = line :: more) (hw : (ofLine separator line).1 = w :: ws) :
    ∃ m ts, ofText separator text = (m, w) :: (ws.map (Prod.mk none) ++ ts) := by
  rcases hs : ofLine separator line with ⟨words, comment⟩
  obtain rfl : words = w :: ws := by rw [← hw, hs]
  refine ⟨Frame.joinComments none comment, marked none (more.map (ofLine separator)), ?_⟩
  rw [ofText, hl, List.map_cons, hs]
  rfl

end Word

namespace Frame

open Word (marked)

theorem joinComments_assoc (a b c : Option String) :
    joinComments (joinComments a b) c = joinComments a (joinComments b c) := by
  cases a <;> cases b <;> cases c <;> simp [joinComments, String.append_assoc]

@[simp] theorem none_joinComments (a : Option String) : joinComments none a = a := by
  cases a <;> rfl

theorem foldl_joinComments (s : String) (pieces : List String) :
    pieces.foldl (fun a p => joinComments a (some p)) (some s) =
      some ("\n".intercalate (s :: pieces)) := by
  induction pieces generalizing s with
  | nil => simp
  | cons p pieces ih =>
    rw [List.foldl_cons]
    show pieces.foldl _ (some (s ++ "\n" ++ p)) = _
    rw [ih]
    cases pieces <;> simp [String.append_assoc]

/-- The words ahead in a source that has no faults, with their comments. -/
def Holds (separator : Char) (f : Frame) (ts : List (Option String × String)) : Prop :=
  f.source.fault = none ∧ ∃ lines : List String, f.source.unread = lines.map some ∧
    ts = f.words.map (Prod.mk none) ++ marked none (lines.map (Word.ofLine separator))

theorem next_of_marked {separator : Char} {lines : List String} {f : Frame}
    {q p m : Option String} {w : String} {ts : List (Option String × String)}
    (hf : f.source.fault = none) (hw : f.words = []) (hu : f.source.unread = lines.map some)
    (hq : f.comments = joinComments q p)
    (ht : marked p (lines.map (Word.ofLine separator)) = (m, w) :: ts) :
    ∃ f', f.next separator = .ok (some w) f' ∧ f'.Holds separator ts ∧
      f'.comments = joinComments q m := by
  induction lines generalizing f p with
  | nil => cases ht
  | cons line lines ih =>
    have hl : f.source.nextLine = .ok (some line)
        { f.source with unread := lines.map some, count := f.source.count + 1 } := by
      rw [Source.nextLine, hu]
      rfl
    rcases hs : Word.ofLine separator line with ⟨ws, comment⟩
    rw [List.map_cons, hs] at ht
    rw [next, hw, hl]
    simp only [hs]
    cases ws with
    | nil => exact ih hf rfl rfl (by rw [hq, joinComments_assoc]) ht
    | cons v ws =>
      obtain ⟨⟨rfl, rfl⟩, rfl⟩ : (joinComments p comment = m ∧ v = w) ∧
          ws.map (Prod.mk none) ++ marked none (lines.map (Word.ofLine separator)) = ts := by
        simpa [marked] using ht
      rw [next]
      refine ⟨_, rfl, ⟨hf, lines, rfl, rfl⟩, ?_⟩
      rw [hq, joinComments_assoc]

theorem next_of_marked_nil {separator : Char} {lines : List String} {f : Frame}
    {p : Option String} (hf : f.source.fault = none) (hw : f.words = [])
    (hu : f.source.unread = lines.map some)
    (ht : marked p (lines.map (Word.ofLine separator)) = []) :
    ∃ f', f.next separator = .ok none f' := by
  induction lines generalizing f p with
  | nil =>
    have hl : f.source.nextLine = .ok none f.source := by
      rw [Source.nextLine, hu, List.map_nil, hf]
    rw [next, hw, hl]
    exact ⟨_, rfl⟩
  | cons line lines ih =>
    have hl : f.source.nextLine = .ok (some line)
        { f.source with unread := lines.map some, count := f.source.count + 1 } := by
      rw [Source.nextLine, hu]
      rfl
    rcases hs : Word.ofLine separator line with ⟨ws, comment⟩
    rw [List.map_cons, hs] at ht
    rw [next, hw, hl]
    simp only [hs]
    cases ws with
    | nil => exact ih hf rfl rfl ht
    | cons v ws => cases ht

theorem Holds.next {separator : Char} {f : Frame} {m : Option String} {w : String}
    {ts : List (Option String × String)} (h : f.Holds separator ((m, w) :: ts)) :
    ∃ f', f.next separator = .ok (some w) f' ∧ f'.Holds separator ts ∧
      f'.comments = joinComments f.comments m := by
  obtain ⟨hf, lines, hu, ht⟩ := h
  cases hw : f.words with
  | nil =>
    rw [hw] at ht
    exact next_of_marked hf hw hu rfl ht.symm
  | cons v ws =>
    rw [hw] at ht
    obtain ⟨⟨rfl, rfl⟩, rfl⟩ : (m = none ∧ w = v) ∧ ts = ws.map (Prod.mk none) ++
        marked none (lines.map (Word.ofLine separator)) := by simpa using ht
    rw [Frame.next, hw]
    exact ⟨_, rfl, ⟨hf, lines, hu, rfl⟩, rfl⟩

theorem Holds.next_nil {separator : Char} {f : Frame} (h : f.Holds separator []) :
    ∃ f', f.next separator = .ok none f' := by
  obtain ⟨hf, lines, hu, ht⟩ := h
  obtain ⟨hw, ht⟩ := List.append_eq_nil_iff.1 ht.symm
  exact next_of_marked_nil hf (List.map_eq_nil_iff.1 hw) hu ht

theorem Holds.ahead {separator : Char} {f : Frame} {ts : List (Option String × String)}
    (h : f.Holds separator ts) : f.ahead separator = (ts.map Prod.snd).map .ok := by
  obtain ⟨-, lines, hu, rfl⟩ := h
  rw [Frame.ahead, hu, List.map_append, List.map_append, Word.map_snd_marked, List.flatMap_map,
    List.flatMap_map, List.map_flatMap]
  simp [Function.comp_def]

end Frame

namespace Cursor

open KeepRules.Parser

/-- The lookahead and the words after it, all of the root source. The comments collected so far are
those of the lookahead. -/
def Holds (separator : Char) (c : Cursor) : List (Option String × String) → Prop
  | [] => c.word = none
  | (m, w) :: ts =>
    c.word = some w ∧ c.reader.separator = separator ∧ c.reader.below = [] ∧
      c.reader.top.Holds separator ts ∧ c.reader.top.comments = m

section
variable {separator : Char} {c : Cursor} {ts : List (Option String × String)}

theorem Holds.word (h : c.Holds separator ts) : c.word = (ts.map Prod.snd).head? := by
  cases ts with
  | nil => exact h
  | cons t ts => exact h.1

theorem Holds.atEnd (h : c.Holds separator ts) :
    c.atEnd = (ts.map Prod.snd).head?.all Directive.starts := by
  rw [Cursor.atEnd, h.word]

theorem Holds.ahead {m : Option String} {w : String} (h : c.Holds separator ((m, w) :: ts)) :
    c.Ahead (ts.map Prod.snd) := by
  obtain ⟨-, hsep, hb, ht, -⟩ := h
  refine ⟨?_, fun f hf => ?_⟩
  · rw [Reader.ahead, hsep, hb]
    simp [ht.ahead]
  · rw [hb, List.mem_singleton] at hf
    exact hf ▸ ht.1

/-- Reading on, when the comments have been taken. -/
theorem Holds.advance {w : String} (h : c.Holds separator ((none, w) :: ts)) :
    ∃ c', Parser.advance c = .ok () c' ∧ c'.Holds separator ts := by
  obtain ⟨-, rfl, hb, ht, hm⟩ := h
  cases ts with
  | nil =>
    obtain ⟨f, hn⟩ := ht.next_nil
    exact ⟨⟨_, none⟩, advance_eq_ok.2 (Reader.next_of_none hb hn), rfl⟩
  | cons t ts =>
    obtain ⟨m, v⟩ := t
    obtain ⟨f, hn, hf, hc⟩ := ht.next
    refine ⟨⟨_, some v⟩, advance_eq_ok.2 (Reader.next_of_some hn), rfl, rfl, hb, hf, ?_⟩
    rw [hc, hm, Frame.none_joinComments]

theorem Holds.passes {w : String} {ws : List String}
    (h : c.Holds separator ((none, w) :: (ws.map (Prod.mk none) ++ ts))) :
    ∃ c', c.Passes ws c' ∧ c'.Holds separator ts := by
  induction ws generalizing c w with
  | nil =>
    obtain ⟨c', ha, hc⟩ := h.advance
    exact ⟨c', Passes.nil_iff.2 ha, hc⟩
  | cons v ws ih =>
    obtain ⟨c₁, ha, hc₁⟩ := h.advance
    obtain ⟨c', hp, hc'⟩ := ih hc₁
    exact ⟨c', Passes.cons_iff.2 ⟨c₁, Reads.singleton_iff.2 ⟨ha, hc₁.1⟩, hp⟩, hc'⟩

end

/-- The start of a source without faults. -/
theorem holds_of_lines {source : Source} {settings : Settings} {lines : List String}
    (hf : source.fault = none) (hu : source.unread = lines.map some) :
    ∃ c, ofReader (.ofSource source settings) = .ok c ∧
      c.Holds settings.pathSeparator
        (Word.marked none (lines.map (Word.ofLine settings.pathSeparator))) := by
  have ht : Frame.Holds settings.pathSeparator { source := source }
      (Word.marked none (lines.map (Word.ofLine settings.pathSeparator))) := ⟨hf, lines, hu, rfl⟩
  cases hm : Word.marked none (lines.map (Word.ofLine settings.pathSeparator)) with
  | nil =>
    rw [hm] at ht
    obtain ⟨f, hn⟩ := ht.next_nil
    have hr := Reader.next_of_none (r := .ofSource source settings) rfl hn
    exact ⟨⟨_, none⟩, by rw [ofReader, hr], rfl⟩
  | cons t ts =>
    obtain ⟨m, w⟩ := t
    rw [hm] at ht
    obtain ⟨f, hn, hh, hc⟩ := ht.next
    have hr := Reader.next_of_some (r := .ofSource source settings) hn
    refine ⟨⟨_, some w⟩, by rw [ofReader, hr], rfl, rfl, rfl, hh, ?_⟩
    rw [hc, Frame.none_joinComments]

end Cursor

end KeepRules
