import Mathlib.Data.List.Sort
import KeepRules.Proofs.Lines
import KeepRules.Proofs.Stack

/-! # Tokens

What the words of a line are to be, said of the line as a whole. In front of its comment, each
delimiter that is not blank is a token, and so is each run of characters that are neither blanks nor
delimiters, if it is not part of a longer run.

* `Word.TokenAt`, `Word.Tokens`: the tokens of a text with their places, and all of them in order.
* `Word.tokens_iff`: a text has one list of tokens, and cutting it gives them.
* `Reader.gives_tokens`: a reader gives the tokens of its lines and collects their comments. -/

set_option autoImplicit false

namespace KeepRules

namespace Word

/-- A token of the text, after `start` characters. -/
inductive TokenAt (separator : Char) (text : List Char) (start : Nat) (word : List Char) :
    Prop where
  | delimiter {before after : List Char} {d : Char} (htext : text = before ++ d :: after)
      (hstart : before.length = start) (hdelimiter : isDelimiter separator d = true)
      (hblank : Text.isBlank d = false) (hword : word = [d])
  | run {before after : List Char} (htext : text = before ++ (word ++ after))
      (hstart : before.length = start) (hne : word ≠ [])
      (hrun : ∀ c ∈ word, ¬IsBreak separator c)
      (hleft : ∀ c ∈ before.getLast?, IsBreak separator c)
      (hright : ∀ c ∈ after.head?, IsBreak separator c)

/-- The words are the tokens of the text, in the order of their places. -/
def Tokens (separator : Char) (text : List Char) (ws : List String) : Prop :=
  ∃ places : List (Nat × List Char), places.Pairwise (fun p q => p.1 < q.1) ∧
    (∀ p, p ∈ places ↔ TokenAt separator text p.1 p.2) ∧
    ws = places.map fun p => String.ofList p.2

section
variable {separator : Char}

/-! ## Places -/

theorem exists_of_append_eq {u rest before after : List Char} (h : u ++ rest = before ++ after)
    (hle : u.length ≤ before.length) : ∃ b, before = u ++ b ∧ rest = b ++ after := by
  have hinit : u <+: before :=
    List.prefix_of_prefix_length_le (List.prefix_append u rest) (h ▸ List.prefix_append _ _) hle
  obtain ⟨b, rfl⟩ := hinit
  rw [List.append_assoc] at h
  exact ⟨b, rfl, List.append_cancel_left h⟩

/-- Tokens do not reach over a break. -/
theorem tokenAt_append_iff {u rest word : List Char} {i : Nat}
    (hcut : (∀ c ∈ u.getLast?, IsBreak separator c) ∨ ∀ c ∈ rest.head?, IsBreak separator c) :
    TokenAt separator (u ++ rest) (u.length + i) word ↔ TokenAt separator rest i word := by
  constructor
  · intro h
    cases h with
    | delimiter htext hstart hd hb hword =>
      obtain ⟨b, rfl, rfl⟩ := exists_of_append_eq htext (by omega)
      exact .delimiter rfl (by rw [List.length_append] at hstart; omega) hd hb hword
    | run htext hstart hne hrun hleft hright =>
      obtain ⟨b, rfl, rfl⟩ := exists_of_append_eq htext (by omega)
      refine .run rfl (by rw [List.length_append] at hstart; omega) hne hrun (fun c hc => ?_) hright
      refine hleft c ?_
      rw [List.getLast?_append, Option.mem_def.1 hc]
      rfl
  · intro h
    cases h with
    | @delimiter before after d htext hstart hd hb hword =>
      subst htext
      exact .delimiter (List.append_assoc _ _ _).symm (by simp [hstart]) hd hb hword
    | @run before after htext hstart hne hrun hleft hright =>
      subst htext
      refine .run (List.append_assoc _ _ _).symm (by simp [hstart]) hne hrun ?_ hright
      cases before with
      | cons d before =>
        intro c hc
        refine hleft c ?_
        rw [List.getLast?_append] at hc
        simpa using hc
      | nil =>
        rw [List.append_nil]
        rcases hcut with hcut | hcut
        · exact hcut
        · -- the run would start with a break
          obtain ⟨d, word, rfl⟩ := List.exists_cons_of_ne_nil hne
          exact absurd (hcut d rfl) (hrun d List.mem_cons_self)

/-- At a break, only the break itself can be a token. -/
theorem tokenAt_cons_iff {c : Char} (hc : IsBreak separator c) {rest word : List Char} :
    TokenAt separator (c :: rest) 0 word ↔
      isDelimiter separator c = true ∧ Text.isBlank c = false ∧ word = [c] := by
  constructor
  · intro h
    cases h with
    | delimiter htext hstart hd hb hword =>
      rw [List.length_eq_zero_iff.1 hstart] at htext
      obtain ⟨rfl, -⟩ := List.cons.inj htext
      exact ⟨hd, hb, hword⟩
    | run htext hstart hne hrun _ _ =>
      rw [List.length_eq_zero_iff.1 hstart] at htext
      obtain ⟨d, word, rfl⟩ := List.exists_cons_of_ne_nil hne
      obtain ⟨rfl, -⟩ := List.cons.inj htext
      exact absurd hc (hrun c List.mem_cons_self)
  · rintro ⟨hd, hb, rfl⟩
    exact .delimiter (List.nil_append _).symm rfl hd hb rfl

/-- Of two runs that are both followed by a break, neither is longer than the other. -/
theorem eq_of_append_eq {u v rest after : List Char} (h : u ++ rest = v ++ after)
    (hu : ∀ c ∈ u, ¬IsBreak separator c) (hv : ∀ c ∈ v, ¬IsBreak separator c)
    (hrest : ∀ c ∈ rest.head?, IsBreak separator c)
    (hafter : ∀ c ∈ after.head?, IsBreak separator c) : v = u := by
  rcases List.append_eq_append_iff.1 h with ⟨t, rfl, rfl⟩ | ⟨t, rfl, rfl⟩
  · cases t with
    | nil => exact List.append_nil u
    | cons d t => exact absurd (hrest d rfl) (hv d (by simp))
  · cases t with
    | nil => exact (List.append_nil v).symm
    | cons d t => exact absurd (hafter d rfl) (hu d (by simp))

/-- A run that is followed by a break is a token, and no part of it is one. -/
theorem tokenAt_run_iff {u rest word : List Char} {i : Nat} (hrun : ∀ c ∈ u, ¬IsBreak separator c)
    (hright : ∀ c ∈ rest.head?, IsBreak separator c) (hi : i < u.length) :
    TokenAt separator (u ++ rest) i word ↔ i = 0 ∧ word = u := by
  constructor
  · intro h
    cases h with
    | @delimiter before after d htext hstart hd _ _ =>
      have hinit : before ++ [d] <+: u := by
        refine List.prefix_of_prefix_length_le ⟨after, ?_⟩ (List.prefix_append u rest)
          (by simp; omega)
        rw [htext, List.append_assoc]
        rfl
      exact absurd (.inr hd) (hrun d (hinit.subset (by simp)))
    | @run before after htext hstart hne hrun' hleft' hright' =>
      have hinit : before <+: u :=
        List.prefix_of_prefix_length_le ⟨_, htext.symm⟩ (List.prefix_append u rest) (by omega)
      obtain rfl : before = [] := by
        rcases List.eq_nil_or_concat before with hnil | ⟨b, d, rfl⟩
        · exact hnil
        · exact absurd (hleft' d (by simp)) (hrun d (hinit.subset (by simp)))
      exact ⟨hstart.symm, eq_of_append_eq htext hrun hrun' hright hright'⟩
  · rintro ⟨rfl, rfl⟩
    exact .run (List.nil_append _).symm rfl (List.length_pos_iff.1 hi) hrun nofun hright

/-! ## All tokens -/

theorem tokens_nil : Tokens separator [] [] := by
  refine ⟨[], .nil, fun p => ⟨nofun, fun h => ?_⟩, rfl⟩
  cases h with
  | delimiter htext => simp at htext
  | run htext _ hne => simp_all

/-- The tokens of a text whose first part has at most one, right at its start. -/
theorem Tokens.append {u rest : List Char} {ws : List String} (h : Tokens separator rest ws)
    (first : Option (List Char)) (hne : u ≠ [])
    (hcut : (∀ c ∈ u.getLast?, IsBreak separator c) ∨ ∀ c ∈ rest.head?, IsBreak separator c)
    (hfirst : ∀ i word, i < u.length →
      (TokenAt separator (u ++ rest) i word ↔ i = 0 ∧ word ∈ first)) :
    Tokens separator (u ++ rest) (first.toList.map String.ofList ++ ws) := by
  obtain ⟨places, hsorted, hmem, rfl⟩ := h
  have hpos : 0 < u.length := List.length_pos_iff.2 hne
  refine ⟨first.toList.map (Prod.mk 0) ++ places.map fun p => (u.length + p.1, p.2), ?_, ?_, ?_⟩
  · refine List.pairwise_append.2 ⟨?_, ?_, ?_⟩
    · cases first <;> simp
    · exact hsorted.map _ fun p q hpq => Nat.add_lt_add_left hpq _
    · intro p hp q hq
      obtain ⟨_, -, rfl⟩ := List.mem_map.1 hp
      obtain ⟨_, -, rfl⟩ := List.mem_map.1 hq
      exact Nat.lt_of_lt_of_le hpos (Nat.le_add_right _ _)
  · rintro ⟨i, word⟩
    rw [List.mem_append, List.mem_map, List.mem_map]
    by_cases hi : i < u.length
    · rw [hfirst i word hi]
      constructor
      · rintro (⟨w, hw, he⟩ | ⟨p, -, he⟩)
        · cases he
          exact ⟨rfl, Option.mem_toList.1 hw⟩
        · cases he
          omega
      · rintro ⟨rfl, hw⟩
        exact .inl ⟨word, Option.mem_toList.2 hw, rfl⟩
    · obtain ⟨j, rfl⟩ := Nat.exists_eq_add_of_le (Nat.le_of_not_lt hi)
      rw [tokenAt_append_iff hcut, ← hmem (j, word)]
      constructor
      · rintro (⟨w, -, he⟩ | ⟨⟨k, v⟩, hp, he⟩)
        · have := congrArg Prod.fst he
          simp only at this
          omega
        · simp only [Prod.mk.injEq, Nat.add_left_cancel_iff] at he
          obtain ⟨rfl, rfl⟩ := he
          exact hp
      · exact fun hp => .inr ⟨_, hp, rfl⟩
  · simp [Function.comp_def]

theorem exists_run (separator : Char) (text : List Char) :
    ∃ u rest, text = u ++ rest ∧ (∀ c ∈ u, ¬IsBreak separator c) ∧
      ∀ c ∈ rest.head?, IsBreak separator c := by
  induction text with
  | nil => exact ⟨[], [], rfl, nofun, nofun⟩
  | cons c text ih =>
    by_cases hc : IsBreak separator c
    · exact ⟨[], c :: text, rfl, nofun, by simpa using hc⟩
    · obtain ⟨u, rest, rfl, hu, hrest⟩ := ih
      exact ⟨c :: u, rest, rfl, by simpa using ⟨hc, hu⟩, hrest⟩

theorem words_run {u rest : List Char} (hne : u ≠ []) (hu : ∀ c ∈ u, ¬IsBreak separator c)
    (hrest : ∀ c ∈ rest.head?, IsBreak separator c) :
    words separator (u ++ rest) = String.ofList u :: words separator rest := by
  have hwords : words separator u = [String.ofList u] := by
    refine words_of_forall hne fun c hc => ?_
    simpa [IsBreak] using hu c hc
  cases rest with
  | nil => rw [List.append_nil, hwords, words_nil]
  | cons c rest => rw [words_append (hrest c rfl), hwords, List.singleton_append]

/-- Induction on a text from its front, where a blank, a delimiter or a whole run comes off. -/
@[elab_as_elim]
theorem runs_induction (separator : Char) {motive : List Char → Prop} (nil : motive [])
    (blank : ∀ c text, Text.isBlank c = true → motive text → motive (c :: text))
    (delimiter : ∀ c text, Text.isBlank c = false → isDelimiter separator c = true → motive text →
      motive (c :: text))
    (run : ∀ u rest, u ≠ [] → (∀ c ∈ u, ¬IsBreak separator c) →
      (∀ c ∈ rest.head?, IsBreak separator c) → motive rest → motive (u ++ rest))
    (text : List Char) : motive text := by
  induction hn : text.length using Nat.strongRecOn generalizing text with
  | ind n ih =>
    cases text with
    | nil => exact nil
    | cons c text =>
      by_cases hc : IsBreak separator c
      · have hrest := ih text.length (by rw [← hn]; exact Nat.lt_succ_self _) text rfl
        cases hb : Text.isBlank c with
        | true => exact blank c text hb hrest
        | false => exact delimiter c text hb (hc.resolve_left (by simp [hb])) hrest
      · obtain ⟨u, rest, htext, hu, hright⟩ := exists_run separator (c :: text)
        have hne : u ≠ [] := by
          rintro rfl
          rw [List.nil_append] at htext
          exact hc (hright c (by rw [← htext]; rfl))
        have hlt : rest.length < n := by
          have hpos := List.length_pos_iff.2 hne
          rw [← hn, htext, List.length_append]
          omega
        rw [htext]
        exact run u rest hne hu hright (ih rest.length hlt rest rfl)

/-- The words that a text is cut into are its tokens. -/
theorem tokens_words (text : List Char) : Tokens separator text (words separator text) := by
  induction text using runs_induction separator with
  | nil => exact tokens_nil
  | blank c text hb hrest =>
    have hc : IsBreak separator c := .inl hb
    rw [words_cons_blank hb]
    refine hrest.append (u := [c]) none (by simp) (.inl (by simpa using hc)) fun i word hi => ?_
    obtain rfl := Nat.lt_one_iff.1 hi
    rw [List.singleton_append, tokenAt_cons_iff hc, hb]
    simp
  | delimiter c text hb hd hrest =>
    have hc : IsBreak separator c := .inr hd
    rw [words_cons_delimiter hb hd]
    refine hrest.append (u := [c]) (some [c]) (by simp) (.inl (by simpa using hc))
      fun i word hi => ?_
    obtain rfl := Nat.lt_one_iff.1 hi
    rw [List.singleton_append, tokenAt_cons_iff hc, hb, hd]
    simp [eq_comm]
  | run u rest hne hu hright hrest =>
    rw [words_run hne hu hright]
    refine hrest.append (some u) hne (.inr hright) fun i word hi => ?_
    rw [tokenAt_run_iff hu hright hi]
    simp [eq_comm]

/-- **A text has one list of tokens.** -/
theorem tokens_iff {text : List Char} {ws : List String} :
    Tokens separator text ws ↔ ws = words separator text := by
  constructor
  · intro h
    obtain ⟨places, hsorted, hmem, rfl⟩ := h
    obtain ⟨places', hsorted', hmem', hwords⟩ := @tokens_words separator text
    have : Std.Irrefl fun p q : Nat × List Char => p.1 < q.1 := ⟨fun p => Nat.lt_irrefl p.1⟩
    have : Std.Antisymm fun p q : Nat × List Char => p.1 < q.1 :=
      ⟨fun p q h h' => absurd h (Nat.lt_asymm h')⟩
    rw [hwords, hsorted.eq_of_mem_iff hsorted' fun p => (hmem p).trans (hmem' p).symm]
  · rintro rfl
    exact tokens_words text

/-! ## Lines -/

/-- What stands in front of the comment of a line. -/
def code (line : String) : List Char := line.toList.takeWhile fun c => c != '#'

/-- What stands after the first `#` of a line, if it has one. -/
def comment? (line : String) : Option String :=
  match line.toList.dropWhile fun c => c != '#' with
  | [] => none
  | _ :: comment => some (String.ofList comment)

/-- The words are the tokens of the lines, one line after the other. -/
inductive LineTokens (separator : Char) : List String → List String → Prop where
  | nil : LineTokens separator [] []
  | cons {line : String} {lines us ws : List String} :
      Tokens separator (code line) us → LineTokens separator lines ws →
      LineTokens separator (line :: lines) (us ++ ws)

theorem lineTokens_iff {lines ws : List String} :
    LineTokens separator lines ws ↔ ws = lines.flatMap fun line => words separator (code line) := by
  constructor
  · intro h
    induction h with
    | nil => rfl
    | cons ht _ ih => rw [tokens_iff.1 ht, ih, List.flatMap_cons]
  · rintro rfl
    induction lines with
    | nil => exact .nil
    | cons line lines ih => exact .cons (tokens_words _) ih

theorem dropWhile_append_of_notMem {s : List Char} (h : '#' ∉ s) (t : List Char) :
    (s ++ t).dropWhile (fun c => c != '#') = t.dropWhile fun c => c != '#' := by
  refine List.dropWhile_append_of_pos fun c hc => ?_
  rw [bne_iff_ne]
  exact fun he => h (he ▸ hc)

theorem ofLine_snd (separator : Char) (line : String) :
    (ofLine separator line).2 = comment? line := by
  unfold ofLine comment?
  cases hc : Text.cut '#' line.toList with
  | none =>
    have hdrop := dropWhile_append_of_notMem (Text.cut_eq_none_iff.1 hc) []
    rw [List.append_nil, List.dropWhile_nil] at hdrop
    rw [hdrop]
  | some p =>
    obtain ⟨before, after⟩ := p
    obtain ⟨hl, hnot⟩ := Text.cut_eq_some_iff.1 hc
    rw [hl, dropWhile_append_of_notMem hnot, List.dropWhile_cons_of_neg (by simp)]

/-- The comments of lines, put together. -/
def joined : List String → Option String
  | [] => none
  | comment :: comments => some ("\n".intercalate (comment :: comments))

theorem foldl_joinComments_comment? (lines : List String) :
    lines.foldl (fun comments line => Frame.joinComments comments (comment? line)) none =
      joined (lines.filterMap comment?) := by
  have hsome : ∀ (lines : List String) (comments : Option String),
      lines.foldl (fun comments line => Frame.joinComments comments (comment? line)) comments =
        (lines.filterMap comment?).foldl (fun comments c => Frame.joinComments comments (some c))
          comments := by
    intro lines
    induction lines with
    | nil => exact fun _ => rfl
    | cons line lines ih =>
      intro comments
      rw [List.foldl_cons, ih, List.filterMap_cons]
      cases comment? line <;> cases comments <;> rfl
  rw [hsome]
  cases lines.filterMap comment? with
  | nil => rfl
  | cons comment comments => exact Frame.foldl_joinComments comment comments

end

end Word

/-! ## Comments -/

namespace Frame

/-- The comments that the source comes to when it is read to its end. -/
def allComments (f : Frame) : Option String :=
  f.source.unread.foldl
    (fun comments line => joinComments comments (line.bind Word.comment?)) f.comments

section
variable {separator : Char} {f f' : Frame}

theorem allComments_of_next {word : Option String} (h : f.next separator = .ok word f') :
    f'.allComments = f.allComments := by
  fun_induction next separator f with
  | case1 => cases h; rfl
  | case2 => cases h
  | case3 f hw source hl =>
    cases h
    rw [(Source.unread_of_nextLine_none hl).1]
    rfl
  | case4 f hw line source hl words comment hs ih =>
    rw [ih h, allComments, allComments, (Source.unread_of_nextLine_some hl).1, List.foldl_cons,
      Option.bind_some, ← Word.ofLine_snd separator, hs]

theorem allComments_of_next_none (h : f.next separator = .ok none f') :
    f'.comments = f.allComments := by
  rw [← allComments_of_next h]
  have hunread : f'.source.unread = [] := by
    fun_induction next separator f with
    | case1 => cases h
    | case2 => cases h
    | case3 f hw source hl =>
      cases h
      obtain ⟨rfl, hu⟩ := Source.unread_of_nextLine_none hl
      exact hu
    | case4 f hw line source hl words comment hs ih => exact ih h
  rw [allComments, hunread, List.foldl_nil]

end

end Frame

namespace Reader

section
variable {r r' : Reader}

theorem next_of_root {word : Option String} (h : r.next = .ok word r') (hb : r.below = []) :
    ∃ f, r.top.next r.separator = .ok word f ∧ r' = { r with top := f } := by
  cases hn : r.top.next r.separator with
  | error fault f =>
    rw [next_of_error hn] at h
    cases h
  | ok word' f =>
    cases word' with
    | some w =>
      rw [next_of_some hn] at h
      cases h
      exact ⟨f, rfl, rfl⟩
    | none =>
      rw [next_of_none hb hn] at h
      cases h
      exact ⟨f, rfl, rfl⟩

theorem Gives.root {words : List (Option String)} (h : r.Gives words r') (hb : r.below = []) :
    r'.below = [] ∧ r'.top.allComments = r.top.allComments := by
  induction h with
  | nil => exact ⟨hb, rfl⟩
  | cons hn _ ih =>
    obtain ⟨f, hf, rfl⟩ := next_of_root hn hb
    obtain ⟨hb', hc⟩ := ih hb
    exact ⟨hb', hc.trans (Frame.allComments_of_next hf)⟩

/-- What has been collected when a single source has been read to its end. -/
theorem Gives.comments {words : List (Option String)} (h : r.Gives (words ++ [none]) r')
    (hb : r.below = []) : r'.top.comments = r.top.allComments := by
  obtain ⟨m, hm, hlast⟩ := h.of_append
  obtain ⟨hb', hc⟩ := hm.root hb
  cases hlast with
  | cons hn hnil =>
    cases hnil
    obtain ⟨f, hf, rfl⟩ := next_of_root hn hb'
    rw [← hc]
    exact Frame.allComments_of_next_none hf

end

/-- **Readers give tokens.** Over any lines, a reader gives the tokens of the lines, each once and
in order, and then the end. They look like words, nothing but blanks is lost in front of the
comments, and the comments are collected line by line. -/
theorem gives_tokens (settings : Settings) (origin : Origin) (lines : List String) :
    ∃ ws r', (ofSource { origin := origin, unread := lines.map some } settings).Gives
        (ws.map some ++ [none]) r' ∧
      (∀ vs, Word.LineTokens settings.pathSeparator lines vs ↔ vs = ws) ∧
      (∀ w ∈ ws, Word.IsWord settings.pathSeparator w) ∧
      ws.flatMap String.toList =
        lines.flatMap (fun line => (Word.code line).filter fun c => !Text.isBlank c) ∧
      r'.takeComments.1 = Word.joined (lines.filterMap Word.comment?) := by
  obtain ⟨r', hgives⟩ : (ofSource { origin := origin, unread := lines.map some } settings).Yields
      (lines.flatMap fun line => Word.words settings.pathSeparator (Word.code line)) := by
    have h := @yields_of_lines settings { origin := origin, unread := lines.map some } lines rfl rfl
    simp only [Word.ofLine_fst] at h
    exact h
  refine ⟨_, r', hgives, fun vs => Word.lineTokens_iff, fun w hw => ?_, ?_, ?_⟩
  · obtain ⟨line, -, hw⟩ := List.mem_flatMap.1 hw
    rw [Word.code, ← Word.ofLine_fst] at hw
    exact Word.isWord_of_ofLine hw
  · rw [List.flatMap_assoc]
    refine congrArg (List.flatMap · lines) (funext fun line => ?_)
    rw [← @Word.flatten_split settings.pathSeparator, Word.words, List.flatMap_map]
    simp [List.flatMap_def]
  · show r'.top.comments = _
    rw [hgives.comments rfl, ← Word.foldl_joinComments_comment?, Frame.allComments]
    show List.foldl _ none (lines.map some) = _
    rw [List.foldl_map]
    rfl

end Reader

end KeepRules
