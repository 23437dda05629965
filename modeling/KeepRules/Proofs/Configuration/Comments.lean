import KeepRules.Proofs.Configuration.Fields
import KeepRules.Proofs.Configuration.Segments
import KeepRules.Proofs.Tokens

/-! # The comments of a rule

A line's comment is collected when the line is loaded, and all that has been collected is handed to
the next directive. So a rule has the comments of the lines that have been loaded since the keyword
of the directive before it: those that are written right before the rule, but also those of later
lines of the directive before.

* `Word.numbered`, `Word.commentsIn`: the words of lines with their line numbers, and the comments
  of some of the lines.
* `Cursor.Collects`: a cursor in the only open source, with the comments since some line.
* `Passage`: a directive with the lines of its words. Directives without includes cut the words of a
  text up into passages (`Logs.passages`).
* `rule_comments`: the comments of each rule of such a run, and when they are the ones right before
  it. -/

set_option autoImplicit false

namespace KeepRules

open KeepRules.Parser

namespace Word

/-- The words of the lines, each with the number of its line, where `n` lines come before these. -/
def numbered (separator : Char) (n : Nat) : List String → List (String × Nat)
  | [] => []
  | line :: lines =>
    (ofLine separator line).1.map (fun w => (w, n + 1)) ++ numbered separator (n + 1) lines

/-- The comments after line `m` and up to line `n`. -/
def commentsIn (lines : List String) (m n : Nat) : Option String :=
  joined (((lines.take n).drop m).filterMap comment?)

section
variable {separator : Char} {lines : List String} {l m n : Nat}

theorem map_fst_numbered (separator : Char) (n : Nat) (lines : List String) :
    (numbered separator n lines).map Prod.fst =
      lines.flatMap fun line => (ofLine separator line).1 := by
  induction lines generalizing n with
  | nil => rfl
  | cons line lines ih => simp [numbered, ih, Function.comp_def]

theorem lt_of_mem_numbered {t : String × Nat} (h : t ∈ numbered separator n lines) : n < t.2 := by
  induction lines generalizing n with
  | nil => cases h
  | cons line lines ih =>
    rcases List.mem_append.1 h with h | h
    · obtain ⟨w, -, rfl⟩ := List.mem_map.1 h
      exact Nat.lt_succ_self n
    · have := ih h
      omega

/-- Line numbers do not decrease. -/
theorem pairwise_numbered (separator : Char) (n : Nat) (lines : List String) :
    (numbered separator n lines).Pairwise fun t u => t.2 ≤ u.2 := by
  induction lines generalizing n with
  | nil => exact .nil
  | cons line lines ih =>
    refine List.pairwise_append.2 ⟨?_, ih (n + 1), fun t ht u hu => ?_⟩
    · exact List.pairwise_map.2 (List.pairwise_of_forall fun _ _ => Nat.le_refl _)
    · obtain ⟨w, -, rfl⟩ := List.mem_map.1 ht
      exact Nat.le_of_lt (lt_of_mem_numbered hu)

theorem joined_cons (comment : String) (comments : List String) :
    joined (comment :: comments) = Frame.joinComments (some comment) (joined comments) := by
  cases comments <;> simp [joined, Frame.joinComments, String.append_assoc]

theorem joined_append (a b : List String) :
    joined (a ++ b) = Frame.joinComments (joined a) (joined b) := by
  induction a with
  | nil => exact (Frame.none_joinComments _).symm
  | cons c a ih =>
    rw [List.cons_append, joined_cons, ih, joined_cons, Frame.joinComments_assoc]

@[simp] theorem commentsIn_self (lines : List String) (n : Nat) : commentsIn lines n n = none := by
  have hnil : (lines.take n).drop n = [] := by simp
  rw [commentsIn, hnil]
  rfl

theorem commentsIn_append (lines : List String) (hlm : l ≤ m) (hmn : m ≤ n) :
    commentsIn lines l n =
      Frame.joinComments (commentsIn lines l m) (commentsIn lines m n) := by
  have hcut : (lines.take n).drop l = (lines.take m).drop l ++ (lines.take n).drop m := by
    have hm : lines.drop m = (lines.drop l).drop (m - l) := by
      rw [List.drop_drop]
      congr 1
      omega
    rw [List.drop_take, List.drop_take, List.drop_take, hm, ← List.take_add]
    congr 1
    omega
  rw [commentsIn, hcut, List.filterMap_append, joined_append]
  rfl

/-- The comments of a single line. -/
theorem commentsIn_succ {line : String} {rest : List String} (h : lines.drop n = line :: rest) :
    commentsIn lines n (n + 1) = comment? line := by
  have hline : (lines.take (n + 1)).drop n = [line] := by
    rw [List.drop_take, h, Nat.add_sub_cancel_left]
    rfl
  rw [commentsIn, hline]
  cases hc : comment? line <;> simp [hc, joined]

end

end Word

namespace Frame

theorem joinComments_eq_right_iff {a b : Option String} : joinComments a b = b ↔ a = none := by
  cases a <;> cases b <;> simp [joinComments]

/-! ## Loading lines -/

/-- The frame reads the lines from their start. -/
def ReadsLines (lines : List String) (f : Frame) : Prop :=
  f.source.fault = none ∧ f.source.unread = (lines.drop f.source.count).map some

/-- The words still to come, with the numbers of their lines. -/
def numberedAhead (separator : Char) (lines : List String) (f : Frame) : List (String × Nat) :=
  f.words.map (fun w => (w, f.source.count)) ++
    Word.numbered separator f.source.count (lines.drop f.source.count)

section
variable {separator : Char} {lines : List String} {f f' : Frame}

theorem ReadsLines.ahead (h : f.ReadsLines lines) :
    f.ahead separator = ((f.numberedAhead separator lines).map Prod.fst).map .ok := by
  rw [Frame.ahead, h.2, numberedAhead, List.map_append, List.map_append, Word.map_fst_numbered,
    List.flatMap_map, List.map_flatMap]
  simp [Function.comp_def]

/-- What reading on does to the words ahead and to the comments. -/
structure Loads (separator : Char) (lines : List String) (f : Frame) (word : Option String)
    (f' : Frame) : Prop where
  reads : f'.ReadsLines lines
  count : f.source.count ≤ f'.source.count
  comments : f'.comments =
    joinComments f.comments (Word.commentsIn lines f.source.count f'.source.count)
  ahead : f.numberedAhead separator lines =
    (word.map fun w => (w, f'.source.count)).toList ++ f'.numberedAhead separator lines
  ended : word = none → f'.numberedAhead separator lines = []

theorem ReadsLines.next {word : Option String} (h : f.ReadsLines lines)
    (hn : f.next separator = .ok word f') : f.Loads separator lines word f' := by
  fun_induction Frame.next separator f with
  | case1 f w words hw =>
    cases hn
    refine ⟨h, Nat.le_refl _, ?_, ?_, by simp⟩
    · simp [joinComments]
    · simp [numberedAhead, hw]
  | case2 => cases hn
  | case3 f hw source hl =>
    cases hn
    obtain ⟨rfl, hu⟩ := Source.unread_of_nextLine_none hl
    have hdrop : lines.drop f.source.count = [] := by
      have hlines := h.2
      rw [hu] at hlines
      exact List.map_eq_nil_iff.1 hlines.symm
    refine ⟨h, Nat.le_refl _, ?_, ?_, fun _ => ?_⟩
    · simp [joinComments]
    · simp [numberedAhead]
    · simp [numberedAhead, hw, hdrop, Word.numbered]
  | case4 f hw line source hl words comment hs ih =>
    -- the line that is loaded has the number `source.count`, and its comment joins those before
    obtain ⟨hu, -, hfault, hc⟩ := Source.unread_of_nextLine_some hl
    obtain ⟨rest, hdrop, hrest⟩ : ∃ rest, lines.drop f.source.count = line :: rest ∧
        source.unread = rest.map some := by
      have hlines := h.2
      rw [hu] at hlines
      obtain ⟨l, rest, hdrop, hline, hrest⟩ := List.map_eq_cons_iff.1 hlines.symm
      cases hline
      exact ⟨rest, hdrop, hrest.symm⟩
    have hdrop' : lines.drop source.count = rest := by
      rw [hc, ← List.tail_drop, hdrop, List.tail_cons]
    have hcomment : Word.commentsIn lines f.source.count source.count = comment := by
      rw [hc, Word.commentsIn_succ hdrop, ← Word.ofLine_snd separator, hs]
    have hg := ih ⟨hfault.trans h.1, by rw [hdrop', hrest]⟩ hn
    have hle : f.source.count ≤ source.count := by omega
    refine ⟨hg.reads, Nat.le_trans hle hg.count, ?_, ?_, hg.ended⟩
    · rw [hg.comments, Word.commentsIn_append lines hle hg.count, hcomment, joinComments_assoc]
    · rw [← hg.ahead, numberedAhead, numberedAhead, hw, hdrop, hdrop', Word.numbered, hs, hc]
      rfl

end

end Frame

namespace Cursor

/-- The lines are those of the only open source, and `ts` are the lookahead and all the words after
it. The comments that have been collected are those after line `since`. -/
structure Collects (separator : Char) (lines : List String) (since : Nat)
    (ts : List (String × Nat)) (c : Cursor) : Prop where
  below : c.reader.below = []
  sep : c.reader.separator = separator
  reads : c.reader.top.ReadsLines lines
  since_le : since ≤ c.reader.top.source.count
  comments : c.reader.top.comments = Word.commentsIn lines since c.reader.top.source.count
  tokens : ts = (c.word.map fun w => (w, c.reader.top.source.count)).toList ++
    c.reader.top.numberedAhead separator lines
  ended : c.word = none → ts = []

section
variable {separator : Char} {lines : List String} {since : Nat} {ts : List (String × Nat)}
  {t : String × Nat} {c c' : Cursor}

theorem Collects.word (h : c.Collects separator lines since ts) :
    c.word = ts.head?.map Prod.fst := by
  cases hw : c.word with
  | none =>
    rw [h.ended hw]
    rfl
  | some w =>
    rw [h.tokens, hw]
    rfl

theorem Collects.head (h : c.Collects separator lines since (t :: ts)) :
    c.word = some t.1 ∧ c.reader.top.source.count = t.2 ∧
      c.reader.top.numberedAhead separator lines = ts := by
  have htokens := h.tokens
  rw [h.word] at htokens
  obtain ⟨ht, rfl⟩ := List.cons.inj htokens
  exact ⟨h.word, (congrArg Prod.snd ht).symm, rfl⟩

/-- Reading on adds the comments of the lines that are loaded. -/
theorem collects_of_next {r r' : Reader} {word : Option String} (hbelow : r.below = [])
    (hsep : r.separator = separator) (hreads : r.top.ReadsLines lines)
    (hsince : since ≤ r.top.source.count)
    (hcomments : r.top.comments = Word.commentsIn lines since r.top.source.count)
    (hn : r.next = .ok word r') :
    Collects separator lines since (r.top.numberedAhead separator lines) ⟨r', word⟩ := by
  obtain ⟨f, hf, rfl⟩ := Reader.next_of_root hn hbelow
  rw [hsep] at hf
  have hl := hreads.next hf
  refine ⟨hbelow, hsep, hl.reads, Nat.le_trans hsince hl.count, ?_, hl.ahead, fun hw => ?_⟩
  · show f.comments = Word.commentsIn lines since f.source.count
    rw [hl.comments, hcomments, Word.commentsIn_append lines hsince hl.count]
  · have hword : word = none := hw
    rw [hl.ahead, hl.ended hword, hword]
    rfl

theorem Collects.advance (h : c.Collects separator lines since (t :: ts))
    (ha : Parser.advance c = .ok () c') : c'.Collects separator lines since ts := by
  obtain ⟨-, -, rfl⟩ := h.head
  exact collects_of_next h.below h.sep h.reads h.since_le h.comments (advance_eq_ok.1 ha)

theorem Collects.passes {ws : List String} (h : c.Collects separator lines since (t :: ts))
    (hp : c.Passes ws c') :
    ∃ taken rest, taken.map Prod.fst = ws ∧ ts = taken ++ rest ∧
      c'.Collects separator lines since rest := by
  induction ws generalizing c t ts with
  | nil => exact ⟨[], ts, rfl, rfl, h.advance (Passes.nil_iff.1 hp)⟩
  | cons w ws ih =>
    obtain ⟨c₁, hr, hp⟩ := Passes.cons_iff.1 hp
    obtain ⟨ha, hw⟩ := Reads.singleton_iff.1 hr
    have h₁ := h.advance ha
    cases ts with
    | nil => cases h₁.word.symm.trans hw
    | cons u us =>
      obtain ⟨taken, rest, rfl, rfl, h'⟩ := ih h₁ hp
      obtain rfl : u.1 = w := Option.some.inj (h₁.head.1.symm.trans hw)
      exact ⟨u :: taken, rest, rfl, rfl, h'⟩

theorem Collects.ahead (h : c.Collects separator lines since (t :: ts)) :
    c.Ahead (ts.map Prod.fst) := by
  obtain ⟨-, -, rfl⟩ := h.head
  refine ⟨?_, fun f hf => ?_⟩
  · rw [Reader.ahead, h.below, h.sep]
    simp [h.reads.ahead]
  · rw [h.below, List.mem_singleton] at hf
    exact hf ▸ h.reads.1

/-- A directive takes the comments, and those after its line are collected for the next. -/
theorem Collects.dispatched (h : c.Collects separator lines since (t :: ts))
    (keyword word : String) :
    (Configuration.dispatched c keyword word).Collects separator lines t.2 (t :: ts) := by
  obtain ⟨-, hcount, -⟩ := h.head
  refine ⟨h.below, h.sep, h.reads, Nat.le_of_eq hcount.symm, ?_, h.tokens, h.ended⟩
  show none = Word.commentsIn lines t.2 c.reader.top.source.count
  rw [hcount, Word.commentsIn_self]

end

/-- The start of a text. -/
theorem collects_of_text {settings : Settings} {name text : String} {c : Cursor}
    (hc : ofReader (.ofSource (.ofText name text) settings) = .ok c) :
    c.Collects settings.pathSeparator (Text.lines text) 0
      (Word.numbered settings.pathSeparator 0 (Text.lines text)) :=
  collects_of_next rfl rfl ⟨rfl, rfl⟩ (Nat.le_refl 0) (Word.commentsIn_self _ 0).symm
    (next_of_ofReader hc)

end Cursor

/-- Only these keywords stand for includes. -/
theorem Directive.keyword_of_includeFile {word keyword : String}
    (h : lookup? word = some (keyword, .includeFile)) : keyword ∈ ["@", "-include"] := by
  have hall : ∀ e ∈ table, e.2 = .includeFile → e.1 ∈ ["@", "-include"] := by decide
  exact hall _ (Configuration.mem_table_of_lookup? h) rfl

/-- A rule has the comments that its directive was given. -/
theorem Directive.Makes.comments {ctx : Context} {separator : Char} {comments : Option String}
    {d : Directive} {arguments : List String} {r : KeepRule}
    (h : d.Makes ctx separator comments arguments (.rule r)) : r.comments = comments := by
  cases h
  rfl

namespace Configuration

/-! ## Passages -/

/-- A directive that was carried out, with the lines of its word and of its arguments. -/
structure Passage where
  dispatch : Dispatch
  line : Nat
  arguments : List (String × Nat)
  spelled : arguments.map Prod.fst = dispatch.arguments

namespace Passage

def tokens (p : Passage) : List (String × Nat) := (p.dispatch.word, p.line) :: p.arguments

/-- The line of the last word. -/
def lastLine (p : Passage) : Nat := (p.tokens.getLast (List.cons_ne_nil _ _)).2

/-- The line of the word of the last directive, or no line. -/
def startLine (ps : List Passage) : Nat := ps.getLast?.elim 0 line

/-- The line of the last word of all, or no line. -/
def endLine (ps : List Passage) : Nat := ps.getLast?.elim 0 lastLine

/-- Each rule has the comments after the line of the directive before it, up to its own line. -/
def Commented (lines : List String) : Nat → List Passage → Prop
  | _, [] => True
  | since, p :: ps =>
    (∀ r, p.dispatch.edit = .rule r → r.comments = Word.commentsIn lines since p.line) ∧
      Commented lines p.line ps

theorem Commented.comments {lines : List String} {since : Nat} {before after : List Passage}
    {p : Passage} {r : KeepRule} (h : Commented lines since (before ++ p :: after))
    (hr : p.dispatch.edit = .rule r) :
    r.comments = Word.commentsIn lines (before.getLast?.elim since line) p.line := by
  induction before generalizing since with
  | nil => exact h.1 r hr
  | cons q before ih =>
    rw [ih h.2, List.getLast?_cons]
    cases before.getLast? <;> rfl

/-- The words of a directive come before those of the next. -/
theorem lines_le {before after : List Passage} {p : Passage}
    (h : ((before ++ p :: after).flatMap tokens).Pairwise fun t u => t.2 ≤ u.2) :
    startLine before ≤ endLine before ∧ endLine before ≤ p.line := by
  rcases List.eq_nil_or_concat before with rfl | ⟨earlier, q, rfl⟩
  · exact ⟨Nat.le_refl 0, Nat.zero_le _⟩
  · have hlast : q.tokens.getLast (List.cons_ne_nil _ _) ∈ q.tokens := List.getLast_mem _
    simp only [List.concat_eq_append, List.append_assoc, List.flatMap_append, List.flatMap_cons,
      List.singleton_append] at h
    obtain ⟨hq, -, hcross⟩ := List.pairwise_append.1 (List.pairwise_append.1 h).2.1
    have hstart : q.line ≤ q.lastLine := by
      rcases List.mem_cons.1 hlast with he | hmem
      · exact Nat.le_of_eq (congrArg Prod.snd he).symm
      · exact List.rel_of_pairwise_cons hq hmem
    have hend : q.lastLine ≤ p.line :=
      hcross _ hlast (p.dispatch.word, p.line) (List.mem_append_left _ List.mem_cons_self)
    simpa [startLine, endLine] using ⟨hstart, hend⟩

end Passage

open Passage (startLine endLine)

/-- One directive takes its words off those ahead. -/
theorem Performs.passage {ctx : Context} {c c' : Cursor} {d : Dispatch} {separator : Char}
    {lines : List String} {since : Nat} {ts : List (String × Nat)} (h : Performs ctx c d c')
    (hd : d.directive ≠ .includeFile) (hc : c.Collects separator lines since ts) :
    ∃ p : Passage, ∃ rest, p.dispatch = d ∧ ts = p.tokens ++ rest ∧
      c'.Collects separator lines p.line rest ∧
      ∀ r, d.edit = .rule r → r.comments = Word.commentsIn lines since p.line := by
  cases ts with
  | nil => cases hc.word.symm.trans h.word
  | cons t ts =>
    obtain ⟨w, n⟩ := t
    obtain ⟨hw, hcount, -⟩ := hc.head
    obtain rfl : w = d.word := Option.some.inj (hw.symm.trans h.word)
    obtain ⟨taken, rest, htaken, rfl, hc'⟩ :=
      (hc.dispatched d.keyword d.word).passes (h.completes.passes hd)
    -- the comments are handed over at the word of the directive, before its arguments are read
    refine ⟨⟨d, n, taken, htaken⟩, rest, rfl, rfl, hc', fun r hr => ?_⟩
    have hm := h.completes.makes
    rw [hr] at hm
    rw [hm.comments, hc.comments, hcount]

/-- Directives without includes cut up the words ahead. -/
theorem Logs.passages {ctx : Context} {c c' : Cursor} {log : List Dispatch} {separator : Char}
    {lines : List String} {since : Nat} {ts : List (String × Nat)} (h : Logs ctx c log c')
    (hd : ∀ d ∈ log, d.directive ≠ .includeFile) (hc : c.Collects separator lines since ts) :
    ∃ ps rest since', ps.map Passage.dispatch = log ∧ ts = ps.flatMap Passage.tokens ++ rest ∧
      c'.Collects separator lines since' rest ∧ Passage.Commented lines since ps := by
  induction h generalizing since ts with
  | nil => exact ⟨[], ts, since, rfl, rfl, hc, trivial⟩
  | cons hp _ ih =>
    obtain ⟨p, rest, rfl, rfl, hc₁, hcomments⟩ := hp.passage (hd _ List.mem_cons_self) hc
    obtain ⟨ps, rest', since', rfl, rfl, hc', hps⟩ :=
      ih (fun d hmem => hd d (List.mem_cons_of_mem _ hmem)) hc₁
    exact ⟨p :: ps, rest', since', rfl, by simp, hc', hcomments, hps⟩

/-- The first of the words ahead are those of a directive, and its comments are known. -/
theorem run_of_collects {ctx : Context} {c : Cursor} {separator : Char} {lines : List String}
    {since n : Nat} {word keyword : String} {d : Directive} {arguments rest : List (String × Nat)}
    {edit : Edit} (hc : c.Collects separator lines since ((word, n) :: (arguments ++ rest)))
    (hl : Directive.lookup? word = some (keyword, d)) (hd : d ≠ .includeFile)
    (hm : d.Makes ctx separator (Word.commentsIn lines since n) (arguments.map Prod.fst) edit)
    (hrest : (rest.map Prod.fst).head?.all Directive.starts = true) (config : Configuration) :
    ∃ c', c'.Collects separator lines n rest ∧
      c'.reader.dispatches = c.reader.dispatches ++ [(keyword, word)] ∧
      run ctx config c = run ctx (edit.on config) c' := by
  have hdispatched := hc.dispatched keyword word
  have hahead := hdispatched.ahead
  rw [List.map_append] at hahead
  obtain ⟨c', hp, hat⟩ := hahead.passes
  obtain ⟨taken, rest', htaken, hsplit, hc'⟩ := hdispatched.passes hp
  have hlength : arguments.length = taken.length := by
    simpa using (congrArg List.length htaken).symm
  obtain ⟨-, rfl⟩ := List.append_inj hsplit hlength
  obtain ⟨hw, hcount, -⟩ := hc.head
  rw [← hc.sep, ← show c.reader.top.source.count = n from hcount, ← hc.comments] at hm
  have hend : c'.atEnd = true := hat.atEnd.trans hrest
  obtain ⟨htrail, hrun⟩ := run_of_makes hw hl hd hm hp hend config
  exact ⟨c', hc', htrail, hrun⟩

/-- An option over two lines, and a rule after it. -/
theorem run_of_dump_keep {c : Cursor} {lines : List String} {k l m : Nat}
    (hc : c.Collects ':' lines 0 [("-dump", k), ("x", l), ("-keep", m), ("class", m), ("a", m)]) :
    ∃ config c', run bareContext {} c = (config, .ok () c') ∧
      c'.reader.dispatches = c.reader.dispatches ++ [("-dump", "-dump"), ("-keep", "-keep")] ∧
      config.keep.map KeepRule.comments = [Word.commentsIn lines k m] := by
  have hdump : Directive.lookup? "-dump" = some ("-dump", .text .dump) := by decide
  have hkeep : Directive.lookup? "-keep" = some ("-keep", .keep .keep) := by decide
  have hx : Directive.starts "x" = false := by decide
  have hnext : Directive.starts "-keep" = true := by decide
  obtain ⟨c₁, hc₁, htrail₁, hrun₁⟩ := @run_of_collects bareContext c ':' lines 0 k "-dump" "-dump"
    (.text .dump) [("x", l)] _ _ hc hdump (by simp) (.text hx) (by simp [hnext]) {}
  obtain ⟨c₂, hc₂, htrail₂, hrun₂⟩ := @run_of_collects bareContext c₁ ':' lines k m "-keep" "-keep"
    (.keep .keep) [("class", m), ("a", m)] [] _ hc₁ hkeep (by simp)
    (.keep (RulePhrase.bare_valid (by decide))) rfl _
  refine ⟨_, _, (hrun₁.trans hrun₂).trans (run_of_none hc₂.word), ?_, rfl⟩
  rw [Reader.dispatches_record, htrail₂, htrail₁]
  simp [Event.dispatch?]

/-- **The comments of a rule.** A run over a text, without includes, cuts the words of the text up
into directives. Each rule has the comments of the lines after that of the keyword of the directive
before it, up to the line of its own keyword. Of these lines, only those after the last word of the
directive before stand right before the rule: the rule has just their comments exactly if none of
the others has one. -/
theorem rule_comments {ctx : Context} {settings : Settings} {name text : String} {c c' : Cursor}
    {config : Configuration}
    (hc : Cursor.ofReader (.ofSource (.ofText name text) settings) = .ok c)
    (h : run ctx {} c = (config, .ok () c'))
    (hroot : ∀ e ∈ c'.reader.dispatches, e.1 ∉ ["@", "-include"]) :
    ∃ passages last, Logs ctx c (passages.map Passage.dispatch) last ∧
      c'.reader.dispatches = passages.map (fun p => (p.dispatch.keyword, p.dispatch.word)) ∧
      passages.flatMap Passage.tokens =
        Word.numbered settings.pathSeparator 0 (Text.lines text) ∧
      config.keep = passages.filterMap (fun p => p.dispatch.edit.rule?) ∧
      ∀ before p after r, passages = before ++ p :: after → p.dispatch.edit = .rule r →
        startLine before ≤ endLine before ∧ endLine before ≤ p.line ∧
        r.comments = Word.commentsIn (Text.lines text) (startLine before) p.line ∧
        (r.comments = Word.commentsIn (Text.lines text) (endLine before) p.line ↔
          Word.commentsIn (Text.lines text) (startLine before) (endLine before) = none) := by
  obtain ⟨log, last, hlogs, hlast, rfl, htrail⟩ := logs_of_run h
  have hstart : c.reader.dispatches = [] := Reader.dispatches_of_next (Cursor.next_of_ofReader hc)
  rw [hlogs.dispatches, hstart, List.nil_append] at htrail
  have hd : ∀ d ∈ log, d.directive ≠ .includeFile := by
    intro d hmem hinclude
    obtain ⟨c₁, c₂, hp⟩ := hlogs.performs d hmem
    refine hroot (d.keyword, d.word) ?_ (Directive.keyword_of_includeFile (hinclude ▸ hp.found))
    rw [htrail]
    exact List.mem_map_of_mem hmem
  obtain ⟨ps, rest, since, rfl, htokens, hend, hcommented⟩ :=
    hlogs.passages hd (Cursor.collects_of_text hc)
  rw [hend.ended hlast, List.append_nil] at htokens
  refine ⟨ps, last, hlogs, ?_, htokens.symm, ?_, fun before p after r hps hr => ?_⟩
  · rw [htrail, List.map_map]
    rfl
  · rw [keep_edited, List.filterMap_map]
    rfl
  · subst hps
    have hsorted := Word.pairwise_numbered settings.pathSeparator 0 (Text.lines text)
    rw [htokens] at hsorted
    obtain ⟨hle, hle'⟩ := Passage.lines_le hsorted
    have hcomments : r.comments = Word.commentsIn (Text.lines text) (startLine before) p.line :=
      hcommented.comments hr
    refine ⟨hle, hle', hcomments, ?_⟩
    rw [hcomments, Word.commentsIn_append _ hle hle', Frame.joinComments_eq_right_iff]

/-- Two directives over several lines. The rule has the comment of the line before it and that of
its own line. -/
theorem rule_comments_dump :
    ∃ c config c', Cursor.ofReader
        (.ofSource (.ofText "t" "#a\n-dump\nx\n#b\n-keep class a #c") {}) = .ok c ∧
      run bareContext {} c = (config, .ok () c') ∧
      (∀ e ∈ c'.reader.dispatches, e.1 ∉ ["@", "-include"]) ∧
      config.keep.map KeepRule.comments = [some "b\nc"] ∧
      ∃ (before : List Passage) (p : Passage) (r : KeepRule),
        p.dispatch.edit = .rule r ∧ startLine before ≤ endLine before ∧ endLine before ≤ p.line ∧
        r.comments = Word.commentsIn (Text.lines "#a\n-dump\nx\n#b\n-keep class a #c")
          (startLine before) p.line := by
  have hnumbered : Word.numbered ':' 0 (Text.lines "#a\n-dump\nx\n#b\n-keep class a #c") =
      [("-dump", 2), ("x", 3), ("-keep", 5), ("class", 5), ("a", 5)] := by decide
  have hcomments : Word.commentsIn (Text.lines "#a\n-dump\nx\n#b\n-keep class a #c") 2 5 =
      some "b\nc" := by decide
  obtain ⟨c, hc, -, -⟩ := Cursor.poised_of_text {} "t" "#a\n-dump\nx\n#b\n-keep class a #c"
  have hstart : c.reader.dispatches = [] := Reader.dispatches_of_next (Cursor.next_of_ofReader hc)
  obtain ⟨config, c', hrun, htrail, hkeep⟩ :=
    run_of_dump_keep (hnumbered ▸ Cursor.collects_of_text hc)
  rw [hcomments] at hkeep
  have hroot : ∀ e ∈ c'.reader.dispatches, e.1 ∉ ["@", "-include"] := by
    rw [htrail, hstart]
    decide
  obtain ⟨ps, -, -, -, -, hrules, hall⟩ := rule_comments hc hrun hroot
  have hne : ps.filterMap (fun p => p.dispatch.edit.rule?) ≠ [] := by
    intro hnil
    rw [hrules, hnil] at hkeep
    cases hkeep
  obtain ⟨r, hr⟩ := List.exists_mem_of_ne_nil _ hne
  obtain ⟨p, hp, hedit⟩ := List.mem_filterMap.1 hr
  rw [Edit.rule?_eq_some] at hedit
  obtain ⟨before, after, hps⟩ := List.append_of_mem hp
  obtain ⟨hle, hle', hr, -⟩ := hall before p after r hps hedit
  exact ⟨c, config, c', hc, hrun, hroot, hkeep, before, p, r, hedit, hle, hle', hr⟩

/-- A comment inside one directive becomes a comment of the next: the first directive ends on line
2, and no line after that has a comment. -/
theorem rule_comments_from_within :
    Word.numbered ':' 0 (Text.lines "-dump\nx #c\n-keep class a\n") =
        [("-dump", 1), ("x", 2), ("-keep", 3), ("class", 3), ("a", 3)] ∧
      Word.commentsIn (Text.lines "-dump\nx #c\n-keep class a\n") 2 3 = none ∧
      ∃ config, ofSource bareContext {} (.ofText "t" "-dump\nx #c\n-keep class a\n") = .ok config ∧
        config.keep.map KeepRule.comments = [some "c"] := by
  have hnumbered : Word.numbered ':' 0 (Text.lines "-dump\nx #c\n-keep class a\n") =
      [("-dump", 1), ("x", 2), ("-keep", 3), ("class", 3), ("a", 3)] := by decide
  have hcomments : Word.commentsIn (Text.lines "-dump\nx #c\n-keep class a\n") 1 3 =
      some "c" := by decide
  obtain ⟨c, hc, -, -⟩ := Cursor.poised_of_text {} "t" "-dump\nx #c\n-keep class a\n"
  obtain ⟨config, c', hrun, -, hkeep⟩ :=
    run_of_dump_keep (hnumbered ▸ Cursor.collects_of_text hc)
  rw [hcomments] at hkeep
  exact ⟨hnumbered, by decide, config, (ofSource_of_run hc).2 ⟨c', hrun⟩, hkeep⟩

end Configuration

end KeepRules
