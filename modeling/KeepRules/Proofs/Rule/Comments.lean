import KeepRules.Proofs.Rule.Printing

/-! # The comments of keep rules

The comments of a rule are written as lines in front of it and collected from these lines again,
where a carriage return at the end of a line is lost.

* `KeepRule.marked_lines`: what is read of the lines of a rule is its keyword, with the comments
  that are left of it, and the words of its phrase.
* `KeepRule.chomped_eq_self`: the comments of a rule are all left exactly if none of their lines
  ends in a carriage return. -/

set_option autoImplicit false

namespace KeepRules

namespace Text

theorem notMem_of_mem_split {mark : Char} {s piece : List Char} (h : piece ∈ split mark s) :
    mark ∉ piece := by
  induction s generalizing piece with
  | nil =>
    obtain rfl := List.mem_singleton.1 h
    exact List.not_mem_nil
  | cons c s ih =>
    rw [split] at h
    split at h
    · rcases List.mem_cons.1 h with rfl | h
      · exact List.not_mem_nil
      · exact ih h
    · next hc =>
      cases hs : split mark s with
      | nil => exact absurd hs (split_ne_nil mark s)
      | cons p ps =>
        rw [hs] at h ih
        rcases List.mem_cons.1 h with rfl | h
        · intro hm
          rcases List.mem_cons.1 hm with he | hm
          · exact hc he.symm
          · exact ih List.mem_cons_self hm
        · exact ih (List.mem_cons_of_mem _ h)

theorem split_append {mark : Char} {piece : List Char} (h : mark ∉ piece) (rest : List Char) :
    split mark (piece ++ mark :: rest) = piece :: split mark rest := by
  induction piece with
  | nil => simp [split]
  | cons c piece ih =>
    have hc : c ≠ mark := fun he => h (he ▸ List.mem_cons_self)
    rw [List.cons_append, split, if_neg hc, ih fun hm => h (List.mem_cons_of_mem _ hm)]

theorem split_of_notMem {mark : Char} {piece : List Char} (h : mark ∉ piece) :
    split mark piece = [piece] := by
  induction piece with
  | nil => rfl
  | cons c piece ih =>
    have hc : c ≠ mark := fun he => h (he ▸ List.mem_cons_self)
    rw [split, if_neg hc, ih fun hm => h (List.mem_cons_of_mem _ hm)]

theorem split_intercalate {mark : Char} {pieces : List (List Char)} (hne : pieces ≠ [])
    (h : ∀ p ∈ pieces, mark ∉ p) : split mark ([mark].intercalate pieces) = pieces := by
  induction pieces with
  | nil => exact absurd rfl hne
  | cons p ps ih =>
    have hp := h p List.mem_cons_self
    cases ps with
    | nil =>
      rw [List.intercalate_singleton]
      exact split_of_notMem hp
    | cons q ps =>
      have ih := ih (by simp) fun q hq => h q (List.mem_cons_of_mem _ hq)
      rw [List.intercalate_cons_cons, List.append_assoc, List.singleton_append, split_append hp, ih]

theorem chomp_sublist (line : List Char) : ∀ c ∈ chomp line, c ∈ line := by
  intro c hc
  by_cases hl : line.getLast? = some '\r'
  · obtain ⟨l, rfl⟩ := List.getLast?_eq_some_iff.1 hl
    rw [chomp_append] at hc
    exact List.mem_append_left _ hc
  · rwa [chomp_eq_self.2 hl] at hc

theorem chomp_cons {c : Char} (hc : c ≠ '\r') (line : List Char) :
    chomp (c :: line) = c :: chomp line := by
  by_cases hl : line.getLast? = some '\r'
  · obtain ⟨l, rfl⟩ := List.getLast?_eq_some_iff.1 hl
    rw [chomp_append, ← List.cons_append, chomp_append]
  · rw [chomp_eq_self.2 hl, chomp_eq_self.2]
    cases line with
    | nil => simpa using hc
    | cons d line =>
      rw [List.getLast?_cons_cons]
      exact hl

end Text

namespace KeepRule

/-- The lines of a text, as texts, each without a carriage return at its end. -/
def chompedLines (comments : String) : List String :=
  (Text.split '\n' comments.toList).map fun line => String.ofList (Text.chomp line)

/-- What is left of the comments when the rule is read again. -/
def chomped (r : KeepRule) : KeepRule :=
  { r with comments := r.comments.map fun s => "\n".intercalate (chompedLines s) }

theorem oneLine_of_commentLines {r : KeepRule} : ∀ l ∈ r.commentLines, '\n' ∉ l.toList := by
  intro l hl
  unfold commentLines at hl
  cases hc : r.comments with
  | none => simp [hc] at hl
  | some s =>
    rw [hc] at hl
    obtain ⟨piece, hp, rfl⟩ := List.mem_map.1 hl
    simpa using Text.notMem_of_mem_split hp

theorem readLine_comment (separator : Char) (piece : List Char) :
    Word.readLine separator ("#" ++ String.ofList piece) =
      ([], some (String.ofList (Text.chomp piece))) := by
  have hl : ("#" ++ String.ofList piece).toList = '#' :: piece := by simp
  have hcut : Text.cut '#' ('#' :: Text.chomp piece) = some ([], Text.chomp piece) :=
    Text.cut_eq_some_iff.2 ⟨rfl, List.not_mem_nil⟩
  rw [Word.readLine, hl, Text.chomp_cons (by decide), Word.ofLine, String.toList_ofList, hcut]
  rfl

/-- Lines of comments are put together by line feeds. -/
theorem marked_comments (pieces : List String) (pending : Option String)
    (rest : List (List String × Option String)) :
    Word.marked pending (pieces.map (fun p => ([], some p)) ++ rest) =
      Word.marked (pieces.foldl (fun a p => Frame.joinComments a (some p)) pending) rest := by
  induction pieces generalizing pending with
  | nil => rfl
  | cons p pieces ih => exact ih _

theorem chompedLines_ne_nil (s : String) : chompedLines s ≠ [] := by
  unfold chompedLines
  rw [ne_eq, List.map_eq_nil_iff]
  exact Text.split_ne_nil _ _

theorem marked_commentLines (separator : Char) (r : KeepRule) (w : String) (ws : List String)
    (rest : List (List String × Option String)) :
    Word.marked none (r.commentLines.map (Word.readLine separator) ++ (w :: ws, none) :: rest) =
      (r.chomped.comments, w) :: ws.map (Prod.mk none) ++ Word.marked none rest := by
  cases hc : r.comments with
  | none => simp [commentLines, chomped, hc, Word.marked, Frame.joinComments]
  | some s =>
    have hlines : r.commentLines.map (Word.readLine separator) =
        (chompedLines s).map fun p => ([], some p) := by
      simp only [commentLines, hc, chompedLines, List.map_map, Function.comp_def, readLine_comment]
    rw [hlines, marked_comments]
    cases hp : chompedLines s with
    | nil => exact absurd hp (chompedLines_ne_nil s)
    | cons p pieces =>
      rw [List.foldl_cons]
      show Word.marked (pieces.foldl _ (some p)) _ = _
      rw [Frame.foldl_joinComments]
      simp [Word.marked, Frame.joinComments, chomped, hc, hp]

/-- What is read of the lines of a rule. -/
theorem marked_lines {separator : Char} (hs : Word.IsSeparator separator) {r : KeepRule}
    (h : r.Printable) (rest : List (List String × Option String)) :
    Word.marked none (r.lines.map (Word.readLine separator) ++ rest) =
      (r.chomped.comments, r.intent.keyword) :: r.phrase.words.map (Prod.mk none) ++
        Word.marked none rest := by
  obtain ⟨ws, wss, hw⟩ := r.lineWords_eq_cons
  have hflat := r.flatten_lineWords
  rw [hw, List.flatten_cons, List.cons_append, List.cons.injEq] at hflat
  rw [lines_eq, List.map_append, (spells_lines hs h).readLine, hw, List.map_cons,
    List.append_assoc, List.cons_append, marked_commentLines, Word.marked_words, ← hflat.2,
    List.map_append]
  simp

theorem oneLine_of_lines {separator : Char} (hs : Word.IsSeparator separator) {r : KeepRule}
    (h : r.Printable) : ∀ l ∈ r.lines, '\n' ∉ l.toList := by
  intro l hl
  rw [lines_eq] at hl
  rcases List.mem_append.1 hl with hl | hl
  · exact oneLine_of_commentLines l hl
  · exact (spells_lines hs h).oneLine l hl

/-- No line of the comments ends in a carriage return. -/
def CommentsWritable (r : KeepRule) : Prop :=
  ∀ s, r.comments = some s → ∀ line ∈ Text.split '\n' s.toList, line.getLast? ≠ some '\r'

theorem intercalate_chompedLines (s : String) :
    "\n".intercalate (chompedLines s) =
      String.ofList (['\n'].intercalate ((Text.split '\n' s.toList).map Text.chomp)) := by
  rw [← String.toList_inj, String.toList_intercalate, String.toList_ofList, chompedLines]
  simp [Function.comp_def]

theorem chomped_eq_self {r : KeepRule} : r.chomped = r ↔ r.CommentsWritable := by
  constructor
  · intro h s hs
    have hc : r.comments.map (fun s => "\n".intercalate (chompedLines s)) = r.comments :=
      congrArg KeepRule.comments h
    rw [hs, Option.map_some, Option.some.injEq, intercalate_chompedLines, ← String.toList_inj,
      String.toList_ofList] at hc
    -- cutting the comments again gives their lines, each of them chomped
    have hsplit : (Text.split '\n' s.toList).map Text.chomp = Text.split '\n' s.toList := by
      have hne : (Text.split '\n' s.toList).map Text.chomp ≠ [] := by
        rw [ne_eq, List.map_eq_nil_iff]
        exact Text.split_ne_nil _ _
      have hnot : ∀ p ∈ (Text.split '\n' s.toList).map Text.chomp, '\n' ∉ p := by
        intro p hp
        obtain ⟨q, hq, rfl⟩ := List.mem_map.1 hp
        exact fun hm => Text.notMem_of_mem_split hq (Text.chomp_sublist q _ hm)
      rw [← Text.split_intercalate hne hnot, hc]
    intro line hline
    have := List.map_inj_left.1 (hsplit.trans (List.map_id _).symm) line hline
    exact Text.chomp_eq_self.1 this
  · intro h
    unfold chomped
    cases hc : r.comments with
    | none => cases r; simp_all
    | some s =>
      have hmap : (Text.split '\n' s.toList).map Text.chomp = Text.split '\n' s.toList := by
        have hid : ∀ line ∈ Text.split '\n' s.toList, Text.chomp line = id line :=
          fun line hl => Text.chomp_eq_self.2 (h s hc line hl)
        rw [List.map_inj_left.2 hid, List.map_id]
      rw [Option.map_some, intercalate_chompedLines, hmap, Text.intercalate_split,
        String.ofList_toList, ← hc]

end KeepRule

end KeepRules
