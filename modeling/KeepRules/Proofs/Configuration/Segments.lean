import KeepRules.Proofs.Configuration.Effects
import KeepRules.Proofs.Rule.Comments

/-! # Runs over written directives

A directive as it is read from written lines is a `Segment`: the comments before its keyword, the
keyword, and the words that follow.

* `Segment.Does`: what the directive makes of a configuration, wherever it stands.
* `run_of_segments`: a run over segments does what they do, one after the other.
* `Written`: lines that are read as such segments. `Written.run` is a run over them, and
  `Written.ofSource` reads a text made of them. -/

set_option autoImplicit false

namespace KeepRules

/-- No keyword is taken for an abbreviation of one before it in the table. -/
theorem Directive.lookup?_of_mem_table :
    ∀ e ∈ table, starts e.1 = true ∧ lookup? e.1 = some e := by
  decide +kernel

theorem Directive.lookup?_ofPath (role : PathRole) :
    starts role.keyword = true ∧ lookup? role.keyword = some (ofPath role) := by
  have hmem : ofPath role ∈ table := by cases role <;> simp [table]
  exact lookup?_of_mem_table (ofPath role) hmem

namespace Configuration

open KeepRules.Parser

structure Segment where
  comments : Option String
  keyword : String
  words : List String

namespace Segment

/-- The words of the directive with their comments. -/
def tokens (s : Segment) : List (Option String × String) :=
  (s.comments, s.keyword) :: s.words.map (Prod.mk none)

/-- The directive turns one configuration into the other if the next directive, or nothing, follows
its words. -/
structure Does (separator : Char) (ctx : Context) (s : Segment) (config config' : Configuration) :
    Prop where
  starts : Directive.starts s.keyword = true
  applies : ∃ d, Directive.lookup? s.keyword = some (s.keyword, d) ∧
    ∀ c c' : Cursor, c.reader.separator = separator → c.Passes s.words c' → c'.atEnd = true →
      apply ctx s.comments config d c = (config', .ok () c')

end Segment

/-- The directives turn one configuration into the other, one after the other. -/
inductive DoAll (separator : Char) (ctx : Context) :
    List Segment → Configuration → Configuration → Prop where
  | nil {config : Configuration} : DoAll separator ctx [] config config
  | cons {s : Segment} {ss : List Segment} {config config₁ config' : Configuration} :
      s.Does separator ctx config config₁ → DoAll separator ctx ss config₁ config' →
      DoAll separator ctx (s :: ss) config config'

/-- Whether the words can follow a directive: they start with another one, if with any. -/
def startsNext (ts : List (Option String × String)) : Bool :=
  (ts.map Prod.snd).head?.all Directive.starts

section
variable {separator : Char} {ctx : Context}

theorem DoAll.append {ss ss' : List Segment} {a b d : Configuration}
    (h : DoAll separator ctx ss a b) (h' : DoAll separator ctx ss' b d) :
    DoAll separator ctx (ss ++ ss') a d := by
  induction h with
  | nil => exact h'
  | cons hs _ ih => exact .cons hs (ih h')

theorem DoAll.startsNext {ss : List Segment} {a b : Configuration}
    (h : DoAll separator ctx ss a b) {rest : List (Option String × String)}
    (hr : startsNext rest = true) : startsNext (ss.flatMap Segment.tokens ++ rest) = true := by
  cases h with
  | nil => exact hr
  | cons hs _ => exact hs.starts

/-- Dispatching takes the comments, and nothing else. -/
theorem holds_dispatched {c : Cursor} {m : Option String} {w : String}
    {ts : List (Option String × String)} (h : c.Holds separator ((m, w) :: ts))
    (keyword word : String) : (dispatched c keyword word).Holds separator ((none, w) :: ts) := by
  obtain ⟨hw, hsep, hb, ht, -⟩ := h
  exact ⟨hw, hsep, hb, ht, rfl⟩

theorem run_of_segment {s : Segment} {config config' : Configuration} {c : Cursor}
    {rest : List (Option String × String)} (hs : s.Does separator ctx config config')
    (hc : c.Holds separator (s.tokens ++ rest)) (hr : startsNext rest = true) :
    ∃ c', c'.Holds separator rest ∧ (c.Lexical → c'.Lexical) ∧
      run ctx config c = run ctx config' c' := by
  obtain ⟨d, hl, happly⟩ := hs.applies
  have hd := holds_dispatched hc s.keyword s.keyword
  obtain ⟨c', hp, hc'⟩ := hd.passes
  have hend : c'.atEnd = true := hc'.atEnd.trans hr
  have hstep : step ctx config s.keyword c = (config', .ok () c') := by
    rw [step_eq_of_lookup? hl, show c.reader.top.comments = s.comments from hc.2.2.2.2]
    exact happly _ c' hd.2.1 hp hend
  refine ⟨c', hc', fun hlex => ?_, ?_⟩
  · exact (effect_of_step hlex hstep).2.1
  · rw [run_of_some hc.1, hstep]

theorem run_of_segments {ss : List Segment} {config config' : Configuration} {c : Cursor}
    {rest : List (Option String × String)} (h : DoAll separator ctx ss config config')
    (hc : c.Holds separator (ss.flatMap Segment.tokens ++ rest)) (hr : startsNext rest = true) :
    ∃ c', c'.Holds separator rest ∧ (c.Lexical → c'.Lexical) ∧
      run ctx config c = run ctx config' c' := by
  induction h generalizing c with
  | nil => exact ⟨c, hc, fun hlex => hlex, rfl⟩
  | @cons s ss config config₁ config' hs hss ih =>
    rw [List.flatMap_cons, List.append_assoc] at hc
    obtain ⟨c₁, hc₁, hl₁, hrun₁⟩ := run_of_segment hs hc (hss.startsNext hr)
    obtain ⟨c', hc', hl', hrun⟩ := ih hc₁
    exact ⟨c', hc', fun hlex => hl' (hl₁ hlex), hrun₁.trans hrun⟩

/-! ## Written lines -/

/-- The lines are read as directives that turn one configuration into the other. -/
def Written (separator : Char) (ctx : Context) (ls : List String)
    (config config' : Configuration) : Prop :=
  (∀ l ∈ ls, '\n' ∉ l.toList) ∧ ∃ ss, DoAll separator ctx ss config config' ∧
    ∀ rest, Word.marked none (ls.map (Word.readLine separator) ++ rest) =
      ss.flatMap Segment.tokens ++ Word.marked none rest

theorem Written.nil {config : Configuration} : Written separator ctx [] config config :=
  ⟨nofun, [], .nil, fun _ => rfl⟩

theorem Written.append {ls ls' : List String} {a b d : Configuration}
    (h : Written separator ctx ls a b) (h' : Written separator ctx ls' b d) :
    Written separator ctx (ls ++ ls') a d := by
  obtain ⟨hone, ss, hss, hm⟩ := h
  obtain ⟨hone', ss', hss', hm'⟩ := h'
  refine ⟨fun l hl => ?_, ss ++ ss', hss.append hss', fun rest => ?_⟩
  · rcases List.mem_append.1 hl with hl | hl
    · exact hone l hl
    · exact hone' l hl
  · rw [List.map_append, List.append_assoc, hm, hm', List.flatMap_append, List.append_assoc]

/-- One directive on a line of its own, without comments. -/
theorem Written.line {line keyword : String} {ws : List String} {config config' : Configuration}
    (hl : Word.Spells separator line (keyword :: ws))
    (hs : Segment.Does separator ctx ⟨none, keyword, ws⟩ config config') :
    Written separator ctx [line] config config' := by
  refine ⟨fun l hm => ?_, [⟨none, keyword, ws⟩], .cons hs .nil, fun rest => ?_⟩
  · rw [List.mem_singleton.1 hm]
    exact hl.oneLine
  · rw [List.map_singleton, hl.readLine]
    simp [Word.marked, Segment.tokens, Frame.joinComments]

/-- The lines come off the front of what is read of a text. -/
theorem Written.ofText {ls : List String} {config config' : Configuration}
    (h : Written separator ctx ls config config') (rest : String) :
    ∃ ss, DoAll separator ctx ss config config' ∧
      Word.ofText separator (String.join (ls.map (· ++ "\n")) ++ rest) =
        ss.flatMap Segment.tokens ++ Word.ofText separator rest := by
  obtain ⟨hone, ss, hss, hm⟩ := h
  refine ⟨ss, hss, ?_⟩
  rw [Word.ofText, Word.ofText, Text.lines_join hone, List.map_append, ← hm, List.map_map]
  rfl

/-- A run over the lines, and then over the rest of a text. -/
theorem Written.run {ls : List String} {config config' : Configuration} {c : Cursor}
    {rest : String} (h : Written separator ctx ls config config')
    (hc : c.Holds separator (Word.ofText separator (String.join (ls.map (· ++ "\n")) ++ rest)))
    (hr : startsNext (Word.ofText separator rest) = true) :
    ∃ c', c'.Holds separator (Word.ofText separator rest) ∧ (c.Lexical → c'.Lexical) ∧
      Configuration.run ctx config c = Configuration.run ctx config' c' := by
  obtain ⟨ss, hss, hm⟩ := h.ofText rest
  rw [hm] at hc
  exact run_of_segments hss hc hr

theorem ofSource_of_run {settings : Settings} {source : Source} {config : Configuration}
    {c : Cursor} (hc : Cursor.ofReader (.ofSource source settings) = .ok c) :
    ofSource ctx settings source = .ok config ↔
      ∃ c', Configuration.run ctx {} c = (config, .ok () c') := by
  have hbind : ∀ f : Cursor → Except ParseError Configuration, (Except.ok c >>= f) = f c :=
    fun f => rfl
  unfold ofSource
  rw [hc, hbind]
  rcases Configuration.run ctx {} c with ⟨config', ⟨u, c'⟩ | ⟨e, c'⟩⟩
  · constructor
    · intro h
      cases h
      exact ⟨c', rfl⟩
    · rintro ⟨c'', h⟩
      cases h
      rfl
  · constructor
    · intro h
      cases h
    · rintro ⟨c'', h⟩
      cases h

theorem Written.ofSource {settings : Settings} {ls : List String} {config : Configuration}
    (h : Written settings.pathSeparator ctx ls {} config) (name : String) :
    Configuration.ofSource ctx settings (.ofText name (String.join (ls.map (· ++ "\n")))) =
      .ok config := by
  obtain ⟨c, hc, hh⟩ := @Cursor.holds_of_lines
    (.ofText name (String.join (ls.map (· ++ "\n")))) settings _ rfl rfl
  rw [← String.append_empty (s := String.join (ls.map (· ++ "\n")))] at hh
  obtain ⟨c', hc', -, hrun⟩ := h.run hh rfl
  have hw : c'.word = none := hc'
  exact (ofSource_of_run hc).2 ⟨_, hrun.trans (run_of_none hw)⟩

end

end Configuration

end KeepRules
