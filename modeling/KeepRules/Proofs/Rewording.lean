import KeepRules.Proofs.Configuration.Texts
import KeepRules.Proofs.Rule.Comments
import KeepRules.Proofs.Tokens

/-! # Texts with other words

Words of a text can be replaced where they stand, while its blanks, its line ends and its comments
stay as they are.

* `Word.reword`: the text with its words replaced by other texts, one after the other.
* `Word.Fits`: what may stand in the place of a word. A delimiter stays; any other word may become
  several words of the same line.
* `Word.ofText_reword`: the words of the new text and their comments.
* `Word.reword_list`: replaced by themselves, the words give the text back. -/

set_option autoImplicit false

namespace KeepRules

theorem Text.chomp_append_of_ne_nil (s : List Char) {t : List Char} (h : t ≠ []) :
    chomp (s ++ t) = s ++ chomp t := by
  by_cases hl : t.getLast? = some '\r'
  · obtain ⟨l, rfl⟩ := List.getLast?_eq_some_iff.1 hl
    rw [← List.append_assoc, chomp_append, chomp_append]
  · rw [chomp_eq_self.2 hl, chomp_eq_self.2]
    rwa [List.getLast?_append, List.getLast?_eq_some_getLast h, Option.some_or,
      ← List.getLast?_eq_some_getLast h]

namespace Word

/-- Where in a line a character stands. -/
inductive Place where
  | gap | word | comment
  deriving DecidableEq

/-- How far a text has been gone through: the place in the line, and the texts to put in the place
of the words to come. -/
structure Rewording where
  place : Place
  texts : List String

namespace Rewording

/-- What is written for a character, and what comes next. A word is replaced at its first
character. -/
def step (separator : Char) (s : Rewording) (c : Char) : Rewording × List Char :=
  if s.place = .comment ∧ c ≠ '\n' ∨ c = '#' then ({ s with place := .comment }, [c])
  else if Text.isBlank c then ({ s with place := .gap }, [c])
  else if isDelimiter separator c then (⟨.gap, s.texts.tail⟩, (s.texts.headD "").toList)
  else if s.place = .word then (s, [])
  else (⟨.word, s.texts.tail⟩, (s.texts.headD "").toList)

def run (separator : Char) : Rewording → List Char → Rewording × List Char
  | s, [] => (s, [])
  | s, c :: rest =>
    ((run separator (s.step separator c).1 rest).1,
      (s.step separator c).2 ++ (run separator (s.step separator c).1 rest).2)

theorem run_cons {separator : Char} {s s₁ : Rewording} {c : Char} {start : List Char}
    (h : s.step separator c = (s₁, start)) (rest : List Char) :
    run separator s (c :: rest) =
      ((run separator s₁ rest).1, start ++ (run separator s₁ rest).2) := by
  rw [run, h]

theorem run_append (separator : Char) (s : Rewording) (u v : List Char) :
    run separator s (u ++ v) =
      ((run separator (run separator s u).1 v).1,
        (run separator s u).2 ++ (run separator (run separator s u).1 v).2) := by
  induction u generalizing s with
  | nil => rfl
  | cons c u ih => simp only [List.cons_append, run, ih, List.append_assoc]

end Rewording

/-- The text with its words replaced by the given texts, one after the other. -/
def reword (separator : Char) (text : String) (texts : List String) : String :=
  String.ofList (Rewording.run separator ⟨.gap, texts⟩ text.toList).2

/-- What may stand in the place of a word: a text of the same line and the words that it is cut
into. A delimiter, which needs no blanks around it, can only stay. -/
structure Fits (separator : Char) (w : String) (p : String × List String) : Prop where
  spells : Spells separator p.1 p.2
  ne_nil : p.2 ≠ []
  delimiter : ∀ d, isDelimiter separator d = true → w = String.singleton d → p.1 = w

section
variable {separator : Char}

/-! ## One line -/

namespace Rewording

theorem run_comment {s : List Char} (h : '\n' ∉ s) (texts : List String) :
    run separator ⟨.comment, texts⟩ s = (⟨.comment, texts⟩, s) := by
  induction s with
  | nil => rfl
  | cons c s ih =>
    obtain ⟨hc, hs⟩ := not_or.1 (mt List.mem_cons.2 h)
    have hstep : step separator ⟨.comment, texts⟩ c = (⟨.comment, texts⟩, [c]) :=
      if_pos (.inl ⟨rfl, Ne.symm hc⟩)
    rw [run_cons hstep, ih hs]
    rfl

theorem step_of_code {s : Rewording} {c : Char} (hs : s.place ≠ .comment) (hc : c ≠ '#') :
    s.step separator c =
      if Text.isBlank c then ({ s with place := .gap }, [c])
      else if isDelimiter separator c then (⟨.gap, s.texts.tail⟩, (s.texts.headD "").toList)
      else if s.place = .word then (s, [])
      else (⟨.word, s.texts.tail⟩, (s.texts.headD "").toList) := by
  rw [step, if_neg]
  rintro (⟨h, -⟩ | h)
  · exact hs h
  · exact hc h

theorem run_word {u : List Char} (hu : ∀ c ∈ u, ¬IsBreak separator c) (hc : '#' ∉ u)
    (texts : List String) : run separator ⟨.word, texts⟩ u = (⟨.word, texts⟩, []) := by
  induction u with
  | nil => rfl
  | cons c u ih =>
    obtain ⟨hb, hd⟩ := not_or.1 (hu c List.mem_cons_self)
    obtain ⟨hne, hcu⟩ := not_or.1 (mt List.mem_cons.2 hc)
    have hstep : step separator ⟨.word, texts⟩ c = (⟨.word, texts⟩, []) := by
      rw [step_of_code (by simp) (Ne.symm hne), if_neg hb, if_neg hd, if_pos rfl]
    rw [run_cons hstep, ih (fun d h => hu d (.tail _ h)) hcu]
    rfl

/-- A whole word is replaced. -/
theorem run_whole {u : List Char} (hne : u ≠ []) (hu : ∀ c ∈ u, ¬IsBreak separator c)
    (hc : '#' ∉ u) {place : Place} (hplace : place ≠ .comment) (hplace' : place ≠ .word)
    (text : String) (texts : List String) :
    run separator ⟨place, text :: texts⟩ u = (⟨.word, texts⟩, text.toList) := by
  obtain ⟨c, u, rfl⟩ := List.exists_cons_of_ne_nil hne
  obtain ⟨hb, hd⟩ := not_or.1 (hu c List.mem_cons_self)
  obtain ⟨hcomment, hcu⟩ := not_or.1 (mt List.mem_cons.2 hc)
  have hstep : step separator ⟨place, text :: texts⟩ c = (⟨.word, texts⟩, text.toList) := by
    rw [step_of_code hplace (Ne.symm hcomment), if_neg hb, if_neg hd, if_neg hplace']
    rfl
  rw [run_cons hstep, run_word (fun d h => hu d (.tail _ h)) hcu, List.append_nil]

/-- What is in front of a comment, without the end of the line. -/
structure IsCode (s : List Char) : Prop where
  notComment : '#' ∉ s
  oneLine : '\n' ∉ s

theorem IsCode.of_append_left {u v : List Char} (h : IsCode (u ++ v)) : IsCode u :=
  ⟨fun hm => h.1 (List.mem_append_left _ hm), fun hm => h.2 (List.mem_append_left _ hm)⟩

theorem IsCode.of_append_right {u v : List Char} (h : IsCode (u ++ v)) : IsCode v :=
  ⟨fun hm => h.1 (List.mem_append_right _ hm), fun hm => h.2 (List.mem_append_right _ hm)⟩

theorem IsCode.append {u v : List Char} (hu : IsCode u) (hv : IsCode v) : IsCode (u ++ v) :=
  ⟨by simp [hu.1, hv.1], by simp [hu.2, hv.2]⟩

/-- How the part of a line in front of its comment is reworded. -/
structure Renders (separator : Char) (s : List Char) (ps : List (String × List String))
    (s' : List Char) : Prop where
  code : IsCode s'
  words : words separator s' = ps.flatMap Prod.snd
  head : (∀ c ∈ s.head?, IsBreak separator c) → ∀ c ∈ s'.head?, IsBreak separator c
  same : ps.map Prod.fst = Word.words separator s → s' = s

section
variable {rest rest' : List Char} {ps : List (String × List String)} {c : Char}

theorem Renders.blank (h : Renders separator rest ps rest') (hb : Text.isBlank c = true)
    (hc : IsCode [c]) : Renders separator (c :: rest) ps (c :: rest') where
  code := hc.append h.code
  words := by rw [words_cons_blank hb, h.words]
  head hhead := hhead
  same he := by rw [h.same (he.trans (words_cons_blank hb rest))]

theorem Renders.delimiter (h : Renders separator rest ps rest') (hb : Text.isBlank c = false)
    (hd : isDelimiter separator c = true) (hc : IsCode [c]) {p : String × List String}
    (hp : Fits separator (String.singleton c) p) :
    Renders separator (c :: rest) (p :: ps) (p.1.toList ++ rest') := by
  have hp₁ : p.1 = String.singleton c := hp.delimiter c hd rfl
  have hp₂ : p.2 = [String.singleton c] := by
    rw [← hp.spells.words, hp₁, String.toList_singleton, words_cons_delimiter hb hd, words_nil]
  rw [hp₁, String.toList_singleton, List.singleton_append]
  constructor
  · exact hc.append h.code
  · rw [words_cons_delimiter hb hd, h.words, List.flatMap_cons, hp₂, List.singleton_append]
  · exact fun hhead => hhead
  · intro he
    rw [words_cons_delimiter hb hd, List.map_cons] at he
    rw [h.same (List.cons.inj he).2]

theorem Renders.word (h : Renders separator rest ps rest') {u : List Char} (hne : u ≠ [])
    (hu : ∀ d ∈ u, ¬IsBreak separator d) (hrest : ∀ d ∈ rest.head?, IsBreak separator d)
    {p : String × List String} (hp : Fits separator (String.ofList u) p) :
    Renders separator (u ++ rest) (p :: ps) (p.1.toList ++ rest') := by
  constructor
  · exact .append ⟨hp.spells.notComment, hp.spells.oneLine⟩ h.code
  · rw [List.flatMap_cons, ← hp.spells.words, ← h.words]
    cases hr : rest' with
    | nil => rw [List.append_nil, words_nil, List.append_nil]
    | cons d rest' =>
      rw [words_append]
      exact h.head hrest d (by rw [hr]; rfl)
  · intro hhead
    obtain ⟨d, u, rfl⟩ := List.exists_cons_of_ne_nil hne
    exact absurd (hhead d rfl) (hu d List.mem_cons_self)
  · intro he
    rw [words_run hne hu hrest, List.map_cons] at he
    obtain ⟨hp₁, he⟩ := List.cons.inj he
    rw [h.same he, hp₁, String.toList_ofList]

end

theorem renders_of_code {s : List Char} (hs : IsCode s) {place : Place}
    (hplace : place ≠ .comment)
    (hword : place = .word → ∀ c ∈ s.head?, IsBreak separator c)
    {ps : List (String × List String)} (h : List.Forall₂ (Fits separator) (words separator s) ps)
    (texts : List String) :
    ∃ place' s', run separator ⟨place, ps.map Prod.fst ++ texts⟩ s = (⟨place', texts⟩, s') ∧
      Renders separator s ps s' := by
  induction s using runs_induction separator generalizing place ps with
  | nil =>
    cases h
    exact ⟨place, [], rfl, hs, rfl, fun hhead => hhead, fun _ => rfl⟩
  | blank c s hb ih =>
    have hcode : IsCode [c] := hs.of_append_left (u := [c])
    have hne : c ≠ '#' := fun he => hcode.1 (he ▸ List.mem_singleton_self _)
    rw [words_cons_blank hb] at h
    obtain ⟨place', s', hrun, hr⟩ :=
      @ih (hs.of_append_right (u := [c])) .gap (by simp) (by simp) ps h
    refine ⟨place', c :: s', ?_, hr.blank hb hcode⟩
    rw [run_cons ((step_of_code hplace hne).trans (if_pos hb)), hrun]
    rfl
  | delimiter c s hb hd ih =>
    have hcode : IsCode [c] := hs.of_append_left (u := [c])
    have hne : c ≠ '#' := fun he => hcode.1 (he ▸ List.mem_singleton_self _)
    rw [words_cons_delimiter hb hd] at h
    cases h with
    | @cons _ p _ ps hp h =>
      obtain ⟨place', s', hrun, hr⟩ :=
        @ih (hs.of_append_right (u := [c])) .gap (by simp) (by simp) ps h
      refine ⟨place', p.1.toList ++ s', ?_, hr.delimiter hb hd hcode hp⟩
      have hstep : step separator ⟨place, (p :: ps).map Prod.fst ++ texts⟩ c =
          (⟨.gap, ps.map Prod.fst ++ texts⟩, p.1.toList) := by
        rw [step_of_code hplace hne, if_neg (by simp [hb]), if_pos hd]
        rfl
      rw [run_cons hstep, hrun]
  | run u rest hne hu hright ih =>
    rw [words_run hne hu hright] at h
    cases h with
    | @cons _ p _ ps hp h =>
      obtain ⟨place', s', hrun, hr⟩ :=
        @ih hs.of_append_right .word (by simp) (fun _ => hright) ps h
      refine ⟨place', p.1.toList ++ s', ?_, hr.word hne hu hright hp⟩
      have hplace' : place ≠ .word := by
        obtain ⟨c, u, rfl⟩ := List.exists_cons_of_ne_nil hne
        exact fun he => hu c List.mem_cons_self (hword he c rfl)
      have hwhole : run separator ⟨place, (p :: ps).map Prod.fst ++ texts⟩ u =
          (⟨.word, ps.map Prod.fst ++ texts⟩, p.1.toList) :=
        run_whole hne hu hs.of_append_left.notComment hplace hplace' p.1 _
      rw [run_append, hwhole, hrun]

end Rewording

theorem comment?_append {code : List Char} (h : '#' ∉ code) (rest : List Char) :
    comment? (String.ofList (code ++ rest)) = comment? (String.ofList rest) := by
  rw [comment?, comment?, String.toList_ofList, String.toList_ofList, dropWhile_append_of_notMem h]

theorem comment?_chomp_append {code : List Char} (h : '#' ∉ code) {rest : List Char}
    (hrest : rest.head? ∈ [none, some '#']) :
    comment? (String.ofList (Text.chomp (code ++ rest))) =
      comment? (String.ofList (Text.chomp rest)) := by
  cases rest with
  | nil =>
    have hchomp : '#' ∉ Text.chomp code := fun hm => h (Text.chomp_sublist code _ hm)
    rw [List.append_nil]
    exact (congrArg (comment? ∘ String.ofList) (List.append_nil _)).symm.trans
      (comment?_append hchomp [])
  | cons c rest => rw [Text.chomp_append_of_ne_nil _ (List.cons_ne_nil c rest), comment?_append h]

/-- How a line is reworded. Its comment stays. -/
structure LineRenders (separator : Char) (line : List Char) (ps : List (String × List String))
    (out : List Char) : Prop where
  oneLine : '\n' ∉ out
  ofLine : ofLine separator (String.ofList out) =
    (ps.flatMap Prod.snd, (ofLine separator (String.ofList line)).2)
  readLine : readLine separator (String.ofList out) =
    (ps.flatMap Prod.snd, (readLine separator (String.ofList line)).2)
  same : ps.map Prod.fst = (Word.ofLine separator (String.ofList line)).1 → out = line

theorem lineRenders_of_line {line : List Char} (hline : '\n' ∉ line)
    {ps : List (String × List String)}
    (h : List.Forall₂ (Fits separator) (Word.ofLine separator (String.ofList line)).1 ps)
    (texts : List String) :
    ∃ place out, Rewording.run separator ⟨.gap, ps.map Prod.fst ++ texts⟩ line =
      (⟨place, texts⟩, out) ∧ LineRenders separator line ps out := by
  obtain ⟨code, rest, rfl, hcode, hrest⟩ : ∃ code rest, line = code ++ rest ∧ '#' ∉ code ∧
      rest.head? ∈ [none, some '#'] := by
    cases hc : Text.cut '#' line with
    | none => exact ⟨line, [], (List.append_nil _).symm, Text.cut_eq_none_iff.1 hc, by simp⟩
    | some p =>
      obtain ⟨hl, hnot⟩ := Text.cut_eq_some_iff.1 hc
      exact ⟨p.1, '#' :: p.2, hl, hnot, by simp⟩
  -- what is in front of the comment gives the words
  have hwords : ∀ s : List Char, '#' ∉ s →
      (Word.ofLine separator (String.ofList (s ++ rest))).1 = words separator s := by
    intro s hs
    have htake : rest.takeWhile (fun c => c != '#') = [] := by
      cases rest with
      | nil => rfl
      | cons c rest =>
        obtain rfl : c = '#' := by simpa using hrest
        rfl
    rw [ofLine_fst, String.toList_ofList, takeWhile_append_of_notMem hs, htake, List.append_nil]
  have hone : Rewording.IsCode code := ⟨hcode, fun hm => hline (List.mem_append_left _ hm)⟩
  rw [hwords code hcode] at h
  obtain ⟨place, s', hrun, hr⟩ := @Rewording.renders_of_code separator code hone .gap (by simp)
    (by simp) ps h texts
  obtain ⟨place', hrun'⟩ : ∃ place', Rewording.run separator ⟨place, texts⟩ rest =
      (⟨place', texts⟩, rest) := by
    cases rest with
    | nil => exact ⟨place, rfl⟩
    | cons c rest =>
      obtain rfl : c = '#' := by simpa using hrest
      have hstep : Rewording.step separator ⟨place, texts⟩ '#' = (⟨.comment, texts⟩, ['#']) :=
        if_pos (.inr rfl)
      have hnot : '\n' ∉ rest := fun hm => hline (by simp [hm])
      exact ⟨.comment, by rw [Rewording.run_cons hstep, Rewording.run_comment hnot]; rfl⟩
  refine ⟨place', s' ++ rest, by rw [Rewording.run_append, hrun, hrun'], ?_, ?_, ?_, ?_⟩
  · intro hm
    rcases List.mem_append.1 hm with hm | hm
    · exact hr.code.oneLine hm
    · exact hline (List.mem_append_right _ hm)
  · refine Prod.ext ((hwords s' hr.code.notComment).trans hr.words) ?_
    rw [ofLine_snd, ofLine_snd, comment?_append hr.code.notComment, comment?_append hcode]
  · refine Prod.ext ?_ ?_
    · rw [Word.readLine, ofLine_chomp_fst]
      exact (hwords s' hr.code.notComment).trans hr.words
    · rw [Word.readLine, Word.readLine, ofLine_snd, ofLine_snd, String.toList_ofList,
        String.toList_ofList, comment?_chomp_append hr.code.notComment hrest,
        comment?_chomp_append hcode hrest]
  · intro he
    rw [hr.same (he.trans (hwords code hcode))]

/-! ## Texts -/

/-- Words with the comments in front of the first. -/
def headed (comments : Option String) : List String → List (Option String × String)
  | [] => []
  | w :: ws => (comments, w) :: ws.map (Prod.mk none)

theorem headed_none (ws : List String) : headed none ws = ws.map (Prod.mk none) := by
  cases ws <;> rfl

/-- The words that are put in the place of words with comments. -/
def spread (ts : List (Option String × String)) (ps : List (String × List String)) :
    List (Option String × String) :=
  (List.zipWith (fun t p => headed t.1 p.2) ts ps).flatten

theorem spread_append {ts ts' : List (Option String × String)}
    {ps ps' : List (String × List String)} (h : ts.length = ps.length) :
    spread (ts ++ ts') (ps ++ ps') = spread ts ps ++ spread ts' ps' := by
  rw [spread, List.zipWith_append h, List.flatten_append]
  rfl

theorem spread_none {ws : List String} {ps : List (String × List String)}
    (h : ws.length = ps.length) :
    spread (ws.map (Prod.mk none)) ps = (ps.flatMap Prod.snd).map (Prod.mk none) := by
  induction ws generalizing ps with
  | nil =>
    rw [List.length_eq_zero_iff.1 h.symm]
    rfl
  | cons w ws ih =>
    cases ps with
    | nil => cases h
    | cons p ps =>
      show headed none p.2 ++ spread (ws.map (Prod.mk none)) ps = _
      rw [ih (Nat.succ.inj h), headed_none, List.flatMap_cons, List.map_append]

/-- One more line in front, with other words. -/
theorem marked_cons {ws : List String} {ps ps' : List (String × List String)}
    (h : List.Forall₂ (Fits separator) ws ps) {comment pending : Option String}
    {ls ls' : List (List String × Option String)}
    (hrest : ∀ pending, marked pending ls' = spread (marked pending ls) ps') :
    marked pending ((ps.flatMap Prod.snd, comment) :: ls') =
      spread (marked pending ((ws, comment) :: ls)) (ps ++ ps') := by
  cases h with
  | nil => exact hrest _
  | @cons w p ws ps hp h =>
    obtain ⟨v, vs, hv⟩ := List.exists_cons_of_ne_nil hp.ne_nil
    rw [List.flatMap_cons, hv, List.cons_append, marked, marked, hrest none, List.cons_append,
      List.cons_append]
    show _ = headed _ p.2 ++ spread (ws.map (Prod.mk none) ++ marked none ls) (ps ++ ps')
    have hlength := h.length_eq
    rw [spread_append (by rw [List.length_map, hlength]), spread_none hlength, hv, headed,
      List.cons_append, List.map_append, List.append_assoc]

/-- A single line, which may be empty. -/
theorem marked_of_oneLine {text : String} (h : '\n' ∉ text.toList) (pending : Option String) :
    marked pending ((Text.lines text).map (ofLine separator)) =
      marked pending [ofLine separator text] := by
  by_cases hne : text = ""
  · subst hne
    rfl
  · rw [Text.lines_of_notMem h hne]
    rfl

theorem list_of_oneLine {text : String} (h : '\n' ∉ text.toList) :
    list separator text = (ofLine separator text).1 := by
  rw [list, ofText, marked_of_oneLine h, map_snd_marked, List.flatMap_singleton]

theorem list_cons {line : String} (h : '\n' ∉ line.toList) (rest : String) :
    list separator (line ++ "\n" ++ rest) =
      (ofLine separator line).1 ++ list separator rest := by
  rw [list_append, list_of_oneLine h]

theorem reword_cons {line : String} (h : '\n' ∉ line.toList)
    {ps ps' : List (String × List String)}
    (hps : List.Forall₂ (Fits separator) (ofLine separator line).1 ps) (rest : String) :
    ∃ out, LineRenders separator line.toList ps out ∧
      reword separator (line ++ "\n" ++ rest) ((ps ++ ps').map Prod.fst) =
        String.ofList out ++ "\n" ++ reword separator rest (ps'.map Prod.fst) := by
  rw [← String.ofList_toList (s := line)] at hps
  obtain ⟨place, out, hrun, hr⟩ := lineRenders_of_line h hps (ps'.map Prod.fst)
  have htext : (line ++ "\n" ++ rest).toList = line.toList ++ '\n' :: rest.toList := by simp
  have hstep : Rewording.step separator ⟨place, ps'.map Prod.fst⟩ '\n' =
      (⟨.gap, ps'.map Prod.fst⟩, ['\n']) := by
    have hcode : ¬(place = .comment ∧ '\n' ≠ '\n' ∨ '\n' = '#') := by simp
    rw [Rewording.step, if_neg hcode, if_pos (by decide)]
  refine ⟨out, hr, ?_⟩
  rw [reword, htext, List.map_append, Rewording.run_append, hrun, Rewording.run_cons hstep,
    ← String.toList_inj]
  simp [reword]

theorem forall₂_of_append {α β : Type} {R : α → β → Prop} {as bs : List α} {cs : List β}
    (h : List.Forall₂ R (as ++ bs) cs) :
    ∃ cs₁ cs₂, cs = cs₁ ++ cs₂ ∧ List.Forall₂ R as cs₁ ∧ List.Forall₂ R bs cs₂ := by
  induction as generalizing cs with
  | nil => exact ⟨[], cs, rfl, .nil, h⟩
  | cons a as ih =>
    cases h with
    | cons ha h =>
      obtain ⟨cs₁, cs₂, rfl, h₁, h₂⟩ := ih h
      exact ⟨_ :: cs₁, cs₂, rfl, .cons ha h₁, h₂⟩

theorem reword_spec (text : String) {ps : List (String × List String)}
    (h : List.Forall₂ (Fits separator) (list separator text) ps) :
    (∀ pending, marked pending ((Text.lines (reword separator text (ps.map Prod.fst))).map
        (ofLine separator)) =
      spread (marked pending ((Text.lines text).map (ofLine separator))) ps) ∧
    (ps.map Prod.fst = list separator text → reword separator text (ps.map Prod.fst) = text) := by
  induction text using Text.lines_induction generalizing ps with
  | single text hnot =>
    rw [list_of_oneLine hnot] at h ⊢
    rw [← String.ofList_toList (s := text)] at h
    obtain ⟨place, out, hrun, hr⟩ := lineRenders_of_line hnot h []
    rw [List.append_nil] at hrun
    have hout : reword separator text (ps.map Prod.fst) = String.ofList out := by
      rw [reword, hrun]
    rw [String.ofList_toList] at h
    refine ⟨fun pending => ?_, fun he => ?_⟩
    · have hone : '\n' ∉ (String.ofList out).toList := by
        rw [String.toList_ofList]
        exact hr.oneLine
      rw [hout, marked_of_oneLine hone, marked_of_oneLine hnot, hr.ofLine, String.ofList_toList]
      have := @marked_cons separator _ ps [] h (ofLine separator text).2 pending [] []
        (fun _ => rfl)
      rwa [List.append_nil] at this
    · rw [hout, hr.same (by rwa [String.ofList_toList]), String.ofList_toList]
  | append line rest hline ih =>
    rw [list_cons hline] at h ⊢
    obtain ⟨ps₁, ps₂, rfl, h₁, h₂⟩ := forall₂_of_append h
    obtain ⟨hmarked, hsame⟩ := ih h₂
    obtain ⟨out, hr, hout⟩ := @reword_cons separator line hline ps₁ ps₂ h₁ rest
    rw [hout]
    refine ⟨fun pending => ?_, fun he => ?_⟩
    · have hone : '\n' ∉ (String.ofList out).toList := by
        rw [String.toList_ofList]
        exact hr.oneLine
      have hread : ofLine separator (String.ofList (Text.chomp (String.ofList out).toList)) =
          (ps₁.flatMap Prod.snd,
            (ofLine separator (String.ofList (Text.chomp line.toList))).2) := by
        have := hr.readLine
        rwa [String.ofList_toList] at this
      have hwords : ofLine separator (String.ofList (Text.chomp line.toList)) =
          ((ofLine separator line).1,
            (ofLine separator (String.ofList (Text.chomp line.toList))).2) :=
        Prod.ext (ofLine_chomp_fst separator line) rfl
      rw [Text.lines_append hone, Text.lines_append hline, List.map_cons, List.map_cons, hread,
        hwords]
      exact marked_cons h₁ hmarked
    · rw [List.map_append] at he
      obtain ⟨he₁, he₂⟩ := List.append_inj he (by rw [List.length_map, h₁.length_eq])
      rw [hsame he₂, hr.same (by rwa [String.ofList_toList]), String.ofList_toList]

/-- The words of the new text, with their comments. -/
theorem ofText_reword {text : String} {ps : List (String × List String)}
    (h : List.Forall₂ (Fits separator) (list separator text) ps) :
    ofText separator (reword separator text (ps.map Prod.fst)) =
      spread (ofText separator text) ps := (reword_spec text h).1 none

/-! ## Single words -/

/-- What a word may be replaced by, if it stays one word. -/
structure Replaces (separator : Char) (w v : String) : Prop where
  word : IsWord separator v
  delimiter : ∀ d, isDelimiter separator d = true → w = String.singleton d → v = w

theorem Replaces.fits {w v : String} (h : Replaces separator w v) : Fits separator w (v, [v]) :=
  ⟨.word h.word, List.cons_ne_nil _ _, h.delimiter⟩

theorem forall₂_fits {ws vs : List String} (h : List.Forall₂ (Replaces separator) ws vs) :
    List.Forall₂ (Fits separator) ws (vs.map fun v => (v, [v])) := by
  rw [List.forall₂_map_right_iff]
  exact h.imp fun _ _ hr => hr.fits

theorem map_fst_words (vs : List String) : (vs.map fun v => (v, [v])).map Prod.fst = vs := by
  rw [List.map_map, show Prod.fst ∘ (fun v : String => (v, [v])) = id from rfl, List.map_id]

theorem spread_words (ts : List (Option String × String)) (vs : List String) :
    spread ts (vs.map fun v => (v, [v])) = (ts.map Prod.fst).zip vs := by
  induction ts generalizing vs with
  | nil => cases vs <;> rfl
  | cons t ts ih =>
    cases vs with
    | nil => rfl
    | cons v vs =>
      show (t.1, v) :: spread ts _ = _
      rw [ih]
      rfl

theorem ofText_reword_words {text : String} {vs : List String}
    (h : List.Forall₂ (Replaces separator) (list separator text) vs) :
    ofText separator (reword separator text vs) =
      ((ofText separator text).map Prod.fst).zip vs := by
  have := ofText_reword (forall₂_fits h)
  rwa [spread_words, map_fst_words] at this

theorem list_reword {text : String} {vs : List String}
    (h : List.Forall₂ (Replaces separator) (list separator text) vs) :
    list separator (reword separator text vs) = vs := by
  rw [list, ofText_reword_words h, List.map_snd_zip]
  have hlength := h.length_eq
  rw [list, List.length_map] at hlength
  rw [List.length_map, hlength]

theorem isWord_of_mem_list {text w : String} (h : w ∈ list separator text) :
    IsWord separator w := by
  rw [list, map_snd_ofText] at h
  obtain ⟨line, -, hw⟩ := List.mem_flatMap.1 h
  exact isWord_of_ofLine hw

/-- Words may stay as they are. -/
theorem forall₂_fits_self {ws : List String} (h : ∀ w ∈ ws, IsWord separator w) :
    List.Forall₂ (Fits separator) ws (ws.map fun v => (v, [v])) :=
  forall₂_fits (List.forall₂_same.2 fun w hw => ⟨h w hw, fun _ _ _ => rfl⟩)

/-- Replaced by themselves, the words give the text back. -/
theorem reword_list (text : String) : reword separator text (list separator text) = text := by
  have hself := forall₂_fits_self fun w (hw : w ∈ list separator text) => isWord_of_mem_list hw
  have h := (reword_spec text hself).2 (map_fst_words _)
  rwa [map_fst_words] at h

theorem spread_self (ts : List (Option String × String)) :
    spread ts ((ts.map Prod.snd).map fun v => (v, [v])) = ts := by
  rw [spread_words, List.zip_map', List.map_id'']
  exact fun _ => rfl

/-- Some of the words are replaced, and those before and after stay. -/
theorem ofText_reword_part {text : String} {us ts vs : List (Option String × String)}
    {ps : List (String × List String)} (ht : ofText separator text = us ++ ts ++ vs)
    (h : List.Forall₂ (Fits separator) (ts.map Prod.snd) ps) :
    ofText separator (reword separator text
        (us.map Prod.snd ++ ps.map Prod.fst ++ vs.map Prod.snd)) = us ++ spread ts ps ++ vs := by
  have hlist : list separator text = us.map Prod.snd ++ ts.map Prod.snd ++ vs.map Prod.snd := by
    rw [list, ht, List.map_append, List.map_append]
  have hword : ∀ w ∈ us.map Prod.snd ++ ts.map Prod.snd ++ vs.map Prod.snd, IsWord separator w :=
    fun w hw => isWord_of_mem_list (hlist ▸ hw)
  have hfits : List.Forall₂ (Fits separator) (list separator text)
      ((us.map Prod.snd).map (fun v => (v, [v])) ++ ps ++
        (vs.map Prod.snd).map fun v => (v, [v])) := by
    rw [hlist]
    refine List.rel_append (List.rel_append (forall₂_fits_self fun w hw => ?_) h)
      (forall₂_fits_self fun w hw => ?_)
    · exact hword w (List.mem_append_left _ (List.mem_append_left _ hw))
    · exact hword w (List.mem_append_right _ hw)
  have hps : ts.length = ps.length := by simpa using h.length_eq
  have hspread := ofText_reword hfits
  rw [List.map_append, List.map_append, map_fst_words, map_fst_words, ht,
    spread_append (by simp [hps]), spread_append (by simp), spread_self, spread_self] at hspread
  exact hspread

end

end Word

end KeepRules
