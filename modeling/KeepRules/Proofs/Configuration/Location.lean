import Mathlib.Data.List.Permutation
import Mathlib.Data.List.ReduceOption
import KeepRules.Proofs.Configuration.Invariant
import KeepRules.Proofs.Configuration.Steps
import KeepRules.Proofs.Configuration.Texts

/-! # Where a configuration is rejected

A configuration is rejected at the lookahead, but the place that is named is that of the innermost
source. The two agree whenever something is rejected.

* `Frame.StandsIn`: a frame has come to where it is from the start of a source, so the number of its
  line and its place in the line are those of its word (`StandsIn.wordAt`).
* `Reader.Placed`: this holds of all open sources, of which the lowest is the root; and each word of
  the root and of all that has been included has either been given or is still ahead.
* `Cursor.Reached`: the cursors that a run can come to, with the sources that have been included and
  what the reader has given on the way. In each of them the lookahead is the word of the innermost
  source (`Reached.located`).
* `run_rejected_at`: what is named is the lookahead with its line, or else the last line of the
  root, and then all words have been read. -/

set_option autoImplicit false

namespace KeepRules

open KeepRules.Parser
open scoped List

namespace Source

/-- The words of a source, a fault standing for a line that cannot be read. -/
def words (separator : Char) (source : Source) : List (Except IoFault String) :=
  Frame.ahead separator { source := source }

/-- The word stands in the `n`-th line of the source, before the comment. The words `after` come
after it in that line, and the lines `later` after that line. -/
def WordAt (separator : Char) (source : Source) (n : Nat) (w : String) (after : List String)
    (later : List (Option String)) : Prop :=
  ∃ earlier line before, source.unread = List.map some earlier ++ some line :: later ∧
    n = earlier.length + 1 ∧ (Word.ofLine separator line).1 = before ++ w :: after

/-- The source may be read above these frames: it is the root if there are none, and else one of
the sources that have been included. -/
def OpenAbove (source root : Source) (included : List Source) (lower : List Frame) : Prop :=
  lower = [] ∧ source = root ∨ lower ≠ [] ∧ source ∈ included

theorem count_of_ofFile {host : Host} {name : String} {source : Source}
    (h : Source.ofFile host name = .ok source) : source.count = 0 := by
  unfold Source.ofFile at h
  split at h
  · next content _ =>
    cases h
    cases content <;> rfl
  · cases h

end Source

/-! ## One source -/

namespace Frame

variable {separator : Char} {source : Source} {f f' : Frame}

/-- These lines of the source have been loaded, and of the words in the last of them `taken` have
been given. -/
structure Within (separator : Char) (source : Source) (lines taken : List String) (f : Frame) :
    Prop where
  origin : f.source.origin = source.origin
  unread : source.unread = lines.map some ++ f.source.unread
  count : f.source.count = lines.length
  words : (lines.getLast?.elim [] fun line => (Word.ofLine separator line).1) = taken ++ f.words

/-- The frame has come to where it is from the start of the source, and its word is the last that
was given. -/
def StandsIn (separator : Char) (source : Source) (f : Frame) : Prop :=
  ∃ lines before, f.Within separator source lines (before ++ f.word.toList)

theorem standsIn_start (h : source.count = 0) : StandsIn separator source { source := source } :=
  ⟨[], [], rfl, rfl, h, rfl⟩

-- While lines are loaded, the word is still that of an earlier line: only when the next word has
-- been found does the frame stand in the source again.
theorem Within.next {lines taken : List String} {word : Option String}
    (h : f.Within separator source lines taken) (hn : f.next separator = .ok word f') :
    f'.StandsIn separator source ∧ f'.word = word ∧ (word = none → f'.source.unread = []) := by
  fun_induction Frame.next separator f generalizing lines taken with
  | case1 f w words hw =>
    cases hn
    refine ⟨⟨lines, taken, h.origin, h.unread, h.count, ?_⟩, rfl, by simp⟩
    rw [h.words, hw]
    simp
  | case2 => cases hn
  | case3 f hw source' hl =>
    cases hn
    obtain ⟨rfl, hu⟩ := Source.unread_of_nextLine_none hl
    refine ⟨⟨lines, taken, h.origin, h.unread, h.count, ?_⟩, rfl, fun _ => hu⟩
    rw [h.words]
    simp
  | case4 f hw line source' hl words comment hs ih =>
    obtain ⟨hu, ho, -, hc⟩ := Source.unread_of_nextLine_some hl
    refine @ih (lines ++ [line]) [] ⟨ho.trans h.origin, ?_, ?_, ?_⟩ hn
    · rw [h.unread, hu]
      simp
    · rw [hc, h.count]
      simp
    · simp [hs]

theorem StandsIn.next {word : Option String} (h : f.StandsIn separator source)
    (hn : f.next separator = .ok word f') :
    f'.StandsIn separator source ∧ f'.word = word ∧ (word = none → f'.source.unread = []) := by
  obtain ⟨lines, before, h⟩ := h
  exact h.next hn

/-- Handing over the comments leaves the frame where it is. -/
theorem StandsIn.withoutComments (h : f.StandsIn separator source) :
    StandsIn separator source { f with comments := none } := by
  obtain ⟨lines, before, h⟩ := h
  exact ⟨lines, before, h.origin, h.unread, h.count, h.words⟩

theorem StandsIn.origin (h : f.StandsIn separator source) : f.source.origin = source.origin := by
  obtain ⟨lines, before, h⟩ := h
  exact h.origin

theorem StandsIn.wordAt {w : String} (h : f.StandsIn separator source) (hw : f.word = some w) :
    source.WordAt separator f.source.count w f.words f.source.unread := by
  obtain ⟨lines, before, h⟩ := h
  have hwords := h.words
  rw [hw] at hwords
  rcases List.eq_nil_or_concat lines with rfl | ⟨earlier, line, rfl⟩
  · simp at hwords
  · refine ⟨earlier, line, before, ?_, ?_, ?_⟩
    · rw [h.unread]
      simp
    · rw [h.count]
      simp
    · simpa using hwords

/-- When no line is left, the line that is named is the last. -/
theorem StandsIn.count_of_unread (h : f.StandsIn separator source) (hu : f.source.unread = []) :
    f.source.count = source.unread.length := by
  obtain ⟨lines, before, h⟩ := h
  rw [h.count, h.unread, hu]
  simp

end Frame

/-! ## All open sources -/

/-- The open sources are read from their starts, the lowest of them is the root, and what has been
given and what is ahead are together the words of the root and of all that has been included. -/
structure Reader.Placed (settings : Settings) (root : Source) (included : List Source)
    (given : List (Option String)) (r : Reader) : Prop where
  follows : r.Follows settings
  stands : ∀ {upper lower : List Frame} {f : Frame}, r.stack = upper ++ f :: lower →
    ∃ source : Source, source.OpenAbove root included lower ∧
      f.StandsIn settings.pathSeparator source
  accounts : (given.reduceOption.map Except.ok ++ r.ahead).Perm
    ((root :: included).flatMap (Source.words settings.pathSeparator))

/-- The lookahead is the word of the innermost source. At the end, only the root is open, and
nothing is left of it. -/
structure Cursor.Located (settings : Settings) (root : Source) (included : List Source)
    (given : List (Option String)) (c : Cursor) : Prop where
  placed : c.reader.Placed settings root included given
  word : c.reader.top.word = c.word
  ended : c.word = none →
    c.reader.below = [] ∧ c.reader.top.source.unread = [] ∧ c.reader.ahead = []

namespace Reader

variable {settings : Settings} {root : Source} {included : List Source}
  {given : List (Option String)} {r r' : Reader}

theorem placed_ofSource (h : root.count = 0) :
    (ofSource root settings).Placed settings root [] [] := by
  refine ⟨⟨rfl, rfl⟩, fun {upper lower f} hstack => ?_, ?_⟩
  · cases upper with
    | nil =>
      cases hstack
      exact ⟨root, .inl ⟨rfl, rfl⟩, Frame.standsIn_start h⟩
    | cons g upper =>
      have hnil : [] = upper ++ f :: lower := (List.cons.inj hstack).2
      simp at hnil
  · exact .refl _

/-- Sources below the one that is read stay where they are. -/
theorem Placed.stands_of_pops {f f' g : Frame} {upper lower lower' : List Frame}
    (h : r.Placed settings root included given) (hp : r.Pops f f' lower r')
    (hf : ∀ source, f.StandsIn settings.pathSeparator source →
      f'.StandsIn settings.pathSeparator source)
    (hstack : r'.stack = upper ++ g :: lower') :
    ∃ source : Source, source.OpenAbove root included lower' ∧
      g.StandsIn settings.pathSeparator source := by
  obtain ⟨gone, hbefore, -⟩ := hp.before
  rw [hp.after] at hstack
  cases upper with
  | nil =>
    cases hstack
    obtain ⟨source, hopen, hs⟩ := h.stands hbefore
    exact ⟨source, hopen, hf source hs⟩
  | cons g' upper =>
    obtain ⟨rfl, rfl⟩ := List.cons.inj hstack
    have hstack' : r.stack = (gone ++ f :: upper) ++ g :: lower' := by
      rw [hbefore]
      simp
    exact h.stands hstack'

theorem Placed.next {word : Option String} (h : r.Placed settings root included given)
    (hn : r.next = .ok word r') :
    Cursor.Located settings root included (given ++ [word]) ⟨r', word⟩ := by
  obtain ⟨f, f', lower, hp, hf, hlower⟩ : ∃ f f' lower, r.Pops f f' lower r' ∧
      f.next r.separator = .ok word f' ∧ (word = none → lower = []) := by
    have hm := hn ▸ r.moves_next
    cases hm with
    | gives hp hf => exact ⟨_, _, _, hp, hf, nofun⟩
    | ends hp hf => exact ⟨_, _, _, hp, hf, fun _ => rfl⟩
  rw [h.follows.1] at hf
  obtain ⟨htop, hbelow⟩ := List.cons.inj hp.after
  obtain ⟨gone, hbefore, -⟩ := hp.before
  obtain ⟨source, -, hs⟩ := h.stands hbefore
  obtain ⟨-, hword, hend⟩ := hs.next hf
  refine ⟨⟨h.follows.next hn, ?_, ?_⟩, htop ▸ hword, fun hw => ?_⟩
  · exact h.stands_of_pops hp fun source hs => (hs.next hf).1
  · have haccounts := h.accounts
    cases word with
    | some w =>
      rw [ahead_of_next_some hn] at haccounts
      simpa [List.reduceOption_append, List.reduceOption_singleton] using haccounts
    | none =>
      obtain ⟨h₀, h₁⟩ := ahead_of_next_none hn
      rw [h₀] at haccounts
      simpa [List.reduceOption_append, List.reduceOption_singleton, h₁] using haccounts
  · subst hw
    exact ⟨hbelow.trans (hlower rfl), htop ▸ hend rfl, (ahead_of_next_none hn).2⟩

end Reader

theorem Reader.Placed.enter {settings : Settings} {root source : Source} {included : List Source}
    {given : List (Option String)} {c c' : Cursor}
    (h : c.reader.Placed settings root included given) (hsource : source.count = 0)
    (he : Parser.enter source c = .ok () c') :
    c'.reader.Placed settings root (source :: included) given := by
  have hentered := Configuration.entered_of_enter h.follows he
  refine ⟨hentered.follows, fun {upper lower f} hstack => ?_, ?_⟩
  · rw [hentered.stack] at hstack
    cases upper with
    | nil =>
      cases hstack
      exact ⟨source, .inr ⟨List.cons_ne_nil _ _, List.mem_cons_self⟩, Frame.standsIn_start hsource⟩
    | cons g upper =>
      obtain ⟨source', hopen, hs⟩ := h.stands (List.cons.inj hstack).2
      refine ⟨source', hopen.imp_right fun ⟨hne, hmem⟩ => ?_, hs⟩
      exact ⟨hne, List.mem_cons_of_mem _ hmem⟩
  · have hahead : c'.reader.ahead = source.words settings.pathSeparator ++ c.reader.ahead := by
      show c'.reader.stack.flatMap _ = _
      rw [hentered.stack, hentered.follows.1, ← h.follows.1]
      rfl
    rw [hahead]
    calc List.map Except.ok given.reduceOption ++
          (source.words settings.pathSeparator ++ c.reader.ahead)
      _ ~ source.words settings.pathSeparator ++
          (List.map Except.ok given.reduceOption ++ c.reader.ahead) :=
        List.perm_append_comm_assoc _ _ _
      _ ~ (source :: root :: included).flatMap (Source.words settings.pathSeparator) :=
        h.accounts.append_left _
      _ ~ (root :: source :: included).flatMap (Source.words settings.pathSeparator) :=
        (List.Perm.swap _ _ _).flatMap_right _

/-! ## Runs -/

namespace Cursor

/-- The cursors that a run can come to from the start of the root, with the sources that have been
included on the way, the latest first, and with what the reader has given. -/
inductive Reached (ctx : Context) (settings : Settings) (root : Source) :
    List Source → List (Option String) → Cursor → Prop where
  | start {c : Cursor} :
      Cursor.ofReader (.ofSource root settings) = .ok c →
      Reached ctx settings root [] [c.word] c
  | reads {included : List Source} {given : List (Option String)} {c c' : Cursor} :
      Reached ctx settings root included given c → advance c = .ok () c' →
      Reached ctx settings root included (given ++ [c'.word]) c'
  | includes {included : List Source} {given : List (Option String)} {c c₁ c' : Cursor}
      {name : String} {source : Source} :
      Reached ctx settings root included given c → Source.ofFile ctx.host name = .ok source →
      enter source c = .ok () c₁ → advance c₁ = .ok () c' →
      Reached ctx settings root (source :: included) (given ++ [c'.word]) c'
  | takes {included : List Source} {given : List (Option String)} {c : Cursor} :
      Reached ctx settings root included given c →
      Reached ctx settings root included given { c with reader := c.reader.takeComments.2 }
  | records {included : List Source} {given : List (Option String)} {c : Cursor} (event : Event) :
      Reached ctx settings root included given c →
      Reached ctx settings root included given { c with reader := c.reader.record event }

variable {ctx : Context} {settings : Settings} {root : Source} {included : List Source}
  {given : List (Option String)} {c c' : Cursor}

theorem Located.takes (h : c.Located settings root included given) :
    Located settings root included given { c with reader := c.reader.takeComments.2 } := by
  have hp := c.reader.pops_top { c.reader.top with comments := none }
  refine ⟨⟨h.placed.follows, ?_, h.placed.accounts⟩, h.word, h.ended⟩
  exact h.placed.stands_of_pops hp fun source hs => hs.withoutComments

theorem Reached.located (h : Reached ctx settings root included given c) (hroot : root.count = 0) :
    c.Located settings root included given := by
  induction h with
  | @start c hc =>
    unfold ofReader at hc
    split at hc
    · next word r hn =>
      cases hc
      exact (Reader.placed_ofSource hroot).next hn
    · cases hc
  | reads _ ha ih => exact ih.placed.next (advance_eq_ok.1 ha)
  | includes _ hsource he ha ih =>
    exact (ih.placed.enter (Source.count_of_ofFile hsource) he).next (advance_eq_ok.1 ha)
  | takes _ ih => exact ih.takes
  | records event _ ih =>
    exact ⟨⟨ih.placed.follows, ih.placed.stands, ih.placed.accounts⟩, ih.word, ih.ended⟩

end Cursor

namespace Configuration

open KeepRules.Cursor (Reached)

/-- A run stays at cursors that can be reached, and what it rejects is at such a cursor. -/
def reaching (ctx : Context) (settings : Settings) (root : Source) : Invariant ctx where
  Holds c := ∃ included given, Reached ctx settings root included (given ++ [c.word]) c
  Fails e c := ∀ reason location, e = .rejected reason location →
    location = c.reader.location ∧
      ∃ included given, Reached ctx settings root included (given ++ [c.word]) c
  rejects reason h reason' location he := by
    cases he
    exact ⟨rfl, h⟩
  unopened origin fault h reason location he := by cases he
  reads c h := by
    obtain ⟨included, given, h⟩ := h
    refine ends_advance (fun ha => ⟨included, _, h.reads ha⟩) fun _ reason location he => ?_
    cases he
  includes h hsource he := by
    obtain ⟨included, given, h⟩ := h
    refine ends_advance (fun ha => ⟨_, _, h.includes hsource he ha⟩) fun _ reason location he => ?_
    cases he
  takes h := by
    obtain ⟨included, given, h⟩ := h
    exact ⟨included, given, h.takes⟩
  records keyword word h := by
    obtain ⟨included, given, h⟩ := h
    exact ⟨included, given, h.records _⟩

/-- **What is rejected is the lookahead, and the place that is named is where it stands.** The
lookahead is what the reader gave last, and the word of the innermost source. If it is a word, the
line that is named is the line of that source which the word is in. Otherwise all words of all
sources have been given, and the last line of the root is named. -/
theorem run_rejected_at {ctx : Context} {settings : Settings} {root : Source}
    {config config' : Configuration} {reason : Reason} {location : Location} {c₀ c : Cursor}
    (hroot : root.count = 0) (hstart : Cursor.ofReader (.ofSource root settings) = .ok c₀)
    (hrun : run ctx config c₀ = (config', .error (.rejected reason location) c)) :
    c.reader.top.word = c.word ∧ location = c.reader.location ∧
      ∃ included given, Reached ctx settings root included (given ++ [c.word]) c ∧
        ((∃ w source, c.word = some w ∧ Source.OpenAbove source root included c.reader.below ∧
            source.WordAt settings.pathSeparator location.line w c.reader.top.words
              c.reader.top.source.unread ∧
            location.describe = "'" ++ w ++ "' in " ++ source.origin.describeLine location.line) ∨
          c.word = none ∧ c.reader.below = [] ∧ c.reader.ahead = [] ∧
            (given.reduceOption.map Except.ok).Perm
              ((root :: included).flatMap (Source.words settings.pathSeparator)) ∧
            location.describe = "end of " ++ root.origin.describeLine root.unread.length) := by
  have hholds : (reaching ctx settings root).Holds c₀ := ⟨[], [], .start hstart⟩
  obtain ⟨rfl, included, given, hreached⟩ :=
    (reaching ctx settings root).fails_of_run hholds hrun reason location rfl
  have hlocated := hreached.located hroot
  have hstack : c.reader.stack = [] ++ c.reader.top :: c.reader.below := rfl
  obtain ⟨source, hopen, hs⟩ := hlocated.placed.stands hstack
  refine ⟨hlocated.word, rfl, included, given, hreached, ?_⟩
  cases hw : c.word with
  | some w =>
    have htop := hlocated.word.trans hw
    refine .inl ⟨w, source, rfl, hopen, hs.wordAt htop, ?_⟩
    simp only [Location.describe, Reader.location, Frame.location, htop, hs.origin]
  | none =>
    have htop := hlocated.word.trans hw
    obtain ⟨hbelow, hunread, hahead⟩ := hlocated.ended hw
    obtain ⟨-, rfl⟩ := hopen.resolve_right fun h => h.1 hbelow
    have haccounts := hlocated.placed.accounts
    rw [hahead, hw, List.append_nil, List.reduceOption_append, List.reduceOption_singleton,
      Option.toList_none, List.append_nil] at haccounts
    refine .inr ⟨rfl, hbelow, hahead, haccounts, ?_⟩
    simp only [Location.describe, Reader.location, Frame.location, htop, hs.origin,
      hs.count_of_unread hunread]

/-- The word is in a file that the root includes, after a line with nothing but a comment. -/
theorem run_rejected_at_included :
    ∃ c₀ c location, Cursor.ofReader (.ofSource (.ofText "m" "@n") {}) = .ok c₀ ∧
      run (fileContext "n" "# a\n-x") {} c₀ =
        ({}, .error (.rejected .unknownDirective location) c) ∧
      location.describe = "'-x' in line 2 of file 'n'" ∧ c.reader.top.word = c.word ∧
      ∃ included given, Reached (fileContext "n" "# a\n-x") {} (.ofText "m" "@n") included
        (given ++ [some "-x"]) c := by
  have hlook : Directive.lookup? "@" = some ("@", .includeFile) := by decide
  have hlook' : Directive.lookup? "-x" = none := by decide
  obtain ⟨c₀, hstart, hword₀, c₁, hnames, c₂, henter, hword, hlocation⟩ :
      ∃ c₀, Cursor.ofReader (.ofSource (.ofText "m" "@n") {}) = .ok c₀ ∧ c₀.word = some "@" ∧
        ∃ c₁, Names (fileContext "n" "# a\n-x") (dispatched c₀ "@" "@") "n" c₁ ∧
          ∃ c₂, (enter (.ofText "n" "# a\n-x") >>= fun _ => advance) c₁ = .ok () c₂ ∧
            c₂.word = some "-x" ∧ c₂.reader.location = ⟨some "-x", 2, .file "n"⟩ :=
    ⟨_, by cbv, by rfl, _, ⟨"n", by cbv, by cbv⟩, _, by cbv, by rfl, by rfl⟩
  have hinclude : includeFile (fileContext "n" "# a\n-x") (dispatched c₀ "@" "@") =
      .ok () c₂ := (includeFile_of_names hnames (Source.ofFile_toUTF8 rfl)).trans henter
  have hrun : run (fileContext "n" "# a\n-x") {} c₀ =
      ({}, .error (.rejected .unknownDirective c₂.reader.location)
        { c₂ with reader := c₂.reader.takeComments.2 }) := by
    rw [run_of_some hword₀, step_eq_of_lookup? hlook, apply, hinclude]
    simp only [settle, run_of_some hword, step, hlook']
    rfl
  obtain ⟨htop, -, included, given, hreached, -⟩ := run_rejected_at rfl hstart hrun
  refine ⟨c₀, _, _, hstart, hrun, ?_, htop, included, given, ?_⟩
  · rw [hlocation]
    rfl
  · rw [← hword]
    exact hreached

end Configuration

end KeepRules
