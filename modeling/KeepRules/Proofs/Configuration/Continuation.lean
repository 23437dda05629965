import KeepRules.Proofs.Configuration.Dispatches
import KeepRules.Proofs.Configuration.Segments

/-! # Texts one after the other

Reading a text into a configuration and then another one comes to the same as reading both put
together, if the second starts with a directive: no directive takes notice of whether it is ended
by the end of the input or by the next directive.

* `readInto`: reading a source into a configuration that is there already.
* `continued`: the foundation for comparing a text with the same text when it goes on.
* `resumed`: the foundation for two sources with the same words ahead.
* `readInto_append`: the text put together, by how reading its first part ends. -/

set_option autoImplicit false

namespace KeepRules

open KeepRules.Parser

namespace Configuration

/-- What is left of an outcome when reading has ended. -/
def Outcome.ending (o : Outcome) : Configuration × Except ParseError Unit :=
  match o with
  | (config, .ok () _) => (config, .ok ())
  | (config, .error e _) => (config, .error e)

/-- Reads a source into the configuration. If reading fails, this is what has become of the
configuration until then. -/
def readInto (ctx : Context) (settings : Settings) (config : Configuration) (source : Source) :
    Configuration × Except ParseError Unit :=
  match Cursor.ofReader (.ofSource source settings) with
  | .ok c => Outcome.ending (run ctx config c)
  | .error e => (config, .error e)

/-- Reading a source on its own is reading it into the configuration with its defaults. -/
theorem ofSource_eq_readInto (ctx : Context) (settings : Settings) (source : Source) :
    ofSource ctx settings source =
      (readInto ctx settings {} source).2.map fun _ => (readInto ctx settings {} source).1 := by
  unfold ofSource readInto
  cases Cursor.ofReader (.ofSource source settings) with
  | error e => rfl
  | ok c =>
    show (match run ctx {} c with
      | (config, .ok () _) => return config
      | (_, .error e _) => throw e : Except ParseError Configuration) =
        (run ctx {} c).ending.2.map fun _ => (run ctx {} c).ending.1
    rcases run ctx {} c with ⟨config, ⟨u, c₁⟩ | ⟨e, c₁⟩⟩ <;> rfl

/-- How reading has ended, apart from the place of an error. -/
def unlocated (o : Configuration × Except ParseError Unit) : Configuration × Except Cause Unit :=
  (o.1, o.2.mapError ParseError.cause)

theorem unlocated_of_error {o o' : Configuration × Except ParseError Unit}
    {config : Configuration} {e : ParseError} (h : unlocated o' = unlocated o)
    (ho : o = (config, .error e)) : ∃ e', o' = (config, .error e') ∧ e'.cause = e.cause := by
  obtain ⟨config', r'⟩ := o'
  subst ho
  obtain ⟨rfl, hr⟩ := Prod.mk.inj h
  cases r' with
  | ok u => cases hr
  | error e' => exact ⟨e', rfl, Except.error.inj hr⟩

theorem Alike.ending {shown : Option String → Option String} {Q : Cursor → Cursor → Prop}
    {o o' : Outcome} (h : Alike shown Q o o') :
    o'.ending.1.mapComments shown = o.ending.1.mapComments shown ∧
      o'.ending.2.mapError ParseError.cause = o.ending.2.mapError ParseError.cause := by
  obtain ⟨config, r⟩ := o
  obtain ⟨config', r'⟩ := o'
  obtain ⟨hc, hr⟩ := h
  cases hr with
  | ok _ => exact ⟨hc, rfl⟩
  | error he => exact ⟨hc, congrArg Except.error he.symm⟩

theorem Alike.unlocated {Q : Cursor → Cursor → Prop} {o o' : Outcome} (h : Alike id Q o o') :
    unlocated o'.ending = unlocated o.ending := by
  obtain ⟨hc, hr⟩ := h.ending
  rw [mapComments_id, mapComments_id] at hc
  exact Prod.ext hc hr

end Configuration

/-! ## A single source, and the same source going on -/

namespace Reader

theorem stack_eq_singleton {r : Reader} {f : Frame} (h : r.stack = [f]) :
    r.top = f ∧ r.below = [] := List.cons.inj h

/-- Reading on in the innermost source. -/
theorem next_of_holds {r : Reader} {f : Frame} {lower : List Frame} {m : Option String}
    {w : String} {ts : List (Option String × String)} (hr : r.stack = f :: lower)
    (h : f.Holds r.separator ((m, w) :: ts)) :
    ∃ f' r', r.next = .ok (some w) r' ∧ r'.stack = f' :: lower ∧ f'.Holds r.separator ts ∧
      f'.comments = Frame.joinComments f.comments m := by
  obtain ⟨rfl, hb⟩ := List.cons.inj hr
  obtain ⟨f', hn, hf, hc⟩ := h.next
  exact ⟨f', _, next_of_some hn, by rw [stack, hb], hf, hc⟩

theorem next_of_holds_nil {r : Reader} {f : Frame} (hr : r.stack = [f])
    (h : f.Holds r.separator []) : ∃ r', r.next = .ok none r' := by
  obtain ⟨rfl, hb⟩ := stack_eq_singleton hr
  obtain ⟨f', hn⟩ := h.next_nil
  exact ⟨_, next_of_none hb hn⟩

end Reader

section
variable (settings : Settings) (tail : List (Option String × String))

/-- The cursor holds the words, and its reader follows the settings. -/
def Cursor.Stands (c : Cursor) : Prop :=
  c.Holds settings.pathSeparator tail ∧ c.reader.Follows settings

/-- Two sources without comments, of which the second goes on when the first has ended. -/
def continued (ht : Configuration.startsNext tail = true) : Foundation settings id False where
  Rel b b' := ∃ f f', ∃ ws : List String, b = [f] ∧ b' = [f'] ∧
    f.Holds settings.pathSeparator (ws.map (Prod.mk none)) ∧
    f'.Holds settings.pathSeparator (ws.map (Prod.mk none) ++ tail) ∧
    f.comments = none ∧ f'.comments = none
  Beyond c c' := c.word = none ∧ c'.Stands settings tail
  ne_nil := by
    rintro _ _ ⟨f, f', ws, rfl, rfl, -⟩
    exact ⟨List.cons_ne_nil _ _, List.cons_ne_nil _ _⟩
  next := by
    rintro r r' hr hr' ⟨f, f', ws, hs, hs', hf, hf', hc, hc'⟩
    rw [← hr.1] at hf
    rw [← hr'.1] at hf'
    cases ws with
    | cons w ws =>
      obtain ⟨g, r₁, hn, hs₁, hg, hgc⟩ := Reader.next_of_holds hs hf
      obtain ⟨g', r₁', hn', hs₁', hg', hgc'⟩ := Reader.next_of_holds hs' hf'
      rw [hr.1] at hg
      rw [hr'.1] at hg'
      rw [hc] at hgc
      rw [hc'] at hgc'
      exact ⟨_, _, r₁, r₁', hn, hn', .inl ⟨⟨w, rfl, rfl⟩, g, g', ws, hs₁, hs₁', hg, hg', hgc, hgc'⟩⟩
    | nil =>
      -- the first source has ended
      obtain ⟨r₁, hn⟩ := Reader.next_of_holds_nil hs hf
      rw [List.map_nil, List.nil_append] at hf'
      cases tail with
      | nil =>
        obtain ⟨r₁', hn'⟩ := Reader.next_of_holds_nil hs' hf'
        exact ⟨_, _, r₁, r₁', hn, hn', .inr ⟨rfl, rfl, hr'.next hn'⟩⟩
      | cons t ts =>
        obtain ⟨m, w⟩ := t
        obtain ⟨g', r₁', hn', hs₁', hg', hgc'⟩ := Reader.next_of_holds hs' hf'
        obtain ⟨rfl, hb⟩ := Reader.stack_eq_singleton hs₁'
        have hfollows := hr'.next hn'
        rw [hr'.1] at hg'
        rw [hc', Frame.none_joinComments] at hgc'
        exact ⟨_, _, r₁, r₁', hn, hn',
          .inr ⟨rfl, ⟨rfl, hfollows.1, hb, hg', hgc'⟩, hfollows⟩⟩
  ended := by
    rintro c c' ⟨hw, hc', -⟩
    refine ⟨?_, hc'.atEnd.trans ht⟩
    rw [Cursor.atEnd, hw]
    rfl
  comments := by
    rintro f f' b b' ⟨_, _, ws, hb, hb', -, -, hc, hc'⟩
    obtain ⟨rfl, -⟩ := List.cons.inj hb
    obtain ⟨rfl, -⟩ := List.cons.inj hb'
    rw [hc, hc']
  takes := by
    rintro f f' b b' ⟨_, _, ws, hb, hb', hf, hf', -, -⟩
    obtain ⟨rfl, rfl⟩ := List.cons.inj hb
    obtain ⟨rfl, rfl⟩ := List.cons.inj hb'
    exact ⟨_, _, ws, rfl, rfl, hf, hf', rfl, rfl⟩
  height := by
    right
    rintro _ _ ⟨f, f', ws, rfl, rfl, -⟩
    rfl

/-- Two sources with the same words and comments ahead. -/
def resumed : Foundation settings id False where
  Rel b b' := ∃ f f' ts, b = [f] ∧ b' = [f'] ∧ f.Holds settings.pathSeparator ts ∧
    f'.Holds settings.pathSeparator ts ∧ f'.comments = f.comments
  Beyond c c' := c.word = none ∧ c'.word = none
  ne_nil := by
    rintro _ _ ⟨f, f', ts, rfl, rfl, -⟩
    exact ⟨List.cons_ne_nil _ _, List.cons_ne_nil _ _⟩
  next := by
    rintro r r' hr hr' ⟨f, f', ts, hs, hs', hf, hf', hc⟩
    rw [← hr.1] at hf
    rw [← hr'.1] at hf'
    cases ts with
    | cons t ts =>
      obtain ⟨m, w⟩ := t
      obtain ⟨g, r₁, hn, hs₁, hg, hgc⟩ := Reader.next_of_holds hs hf
      obtain ⟨g', r₁', hn', hs₁', hg', hgc'⟩ := Reader.next_of_holds hs' hf'
      rw [hr.1] at hg
      rw [hr'.1] at hg'
      rw [hc, ← hgc] at hgc'
      exact ⟨_, _, r₁, r₁', hn, hn', .inl ⟨⟨w, rfl, rfl⟩, g, g', ts, hs₁, hs₁', hg, hg', hgc'⟩⟩
    | nil =>
      obtain ⟨r₁, hn⟩ := Reader.next_of_holds_nil hs hf
      obtain ⟨r₁', hn'⟩ := Reader.next_of_holds_nil hs' hf'
      exact ⟨_, _, r₁, r₁', hn, hn', .inr ⟨rfl, rfl⟩⟩
  ended := Cursor.atEnd_of_none
  comments := by
    rintro f f' b b' ⟨_, _, ts, hb, hb', -, -, hc⟩
    obtain ⟨rfl, -⟩ := List.cons.inj hb
    obtain ⟨rfl, -⟩ := List.cons.inj hb'
    exact hc
  takes := by
    rintro f f' b b' ⟨_, _, ts, hb, hb', hf, hf', -⟩
    obtain ⟨rfl, rfl⟩ := List.cons.inj hb
    obtain ⟨rfl, rfl⟩ := List.cons.inj hb'
    exact ⟨_, _, ts, rfl, rfl, hf, hf', rfl⟩
  height := by
    right
    rintro _ _ ⟨f, f', ts, rfl, rfl, -⟩
    rfl

end

/-! ## Runs -/

namespace Cursor

section
variable {settings : Settings} {tail : List (Option String × String)}

theorem stands_of_lines {source : Source} {lines : List String} (hf : source.fault = none)
    (hu : source.unread = lines.map some) :
    ∃ c, ofReader (.ofSource source settings) = .ok c ∧ c.Stands settings
      (Word.marked none (lines.map (Word.ofLine settings.pathSeparator))) := by
  obtain ⟨c, hc, hh⟩ := @holds_of_lines source settings lines hf hu
  refine ⟨c, hc, hh, ?_⟩
  unfold ofReader at hc
  split at hc
  · next word r hn =>
    cases hc
    have hr : (Reader.ofSource source settings).Follows settings := ⟨rfl, rfl⟩
    exact hr.next hn
  · cases hc

/-- The start of a text. -/
theorem stands_of_text (settings : Settings) (name text : String) :
    ∃ c, ofReader (.ofSource (.ofText name text) settings) = .ok c ∧
      c.Stands settings (Word.ofText settings.pathSeparator text) :=
  stands_of_lines rfl rfl

theorem paired_continued {c c' : Cursor} {ws : List String}
    (ht : Configuration.startsNext tail = true)
    (hc : c.Stands settings (ws.map (Prod.mk none)))
    (hc' : c'.Stands settings (ws.map (Prod.mk none) ++ tail)) :
    (continued settings tail ht).pairing.Paired c c' := by
  obtain ⟨hh, hr⟩ := hc
  obtain ⟨hh', hr'⟩ := hc'
  cases ws with
  | nil => exact .inr ⟨hh, hh', hr'⟩
  | cons w ws =>
    obtain ⟨hw, -, hb, hf, hc⟩ := hh
    obtain ⟨hw', -, hb', hf', hc'⟩ := hh'
    refine .inl ⟨⟨w, hw, hw'⟩, hr, hr', [], _, _, rfl, rfl, c.reader.top, c'.reader.top, ws, ?_⟩
    exact ⟨congrArg (List.cons _) hb, congrArg (List.cons _) hb', hf, hf', hc, hc'⟩

theorem paired_resumed {c c' : Cursor} (hc : c.Stands settings tail)
    (hc' : c'.Stands settings tail) : (resumed settings).pairing.Paired c c' := by
  obtain ⟨hh, hr⟩ := hc
  obtain ⟨hh', hr'⟩ := hc'
  cases tail with
  | nil => exact .inr ⟨hh, hh'⟩
  | cons t ts =>
    obtain ⟨m, w⟩ := t
    obtain ⟨hw, -, hb, hf, hc⟩ := hh
    obtain ⟨hw', -, hb', hf', hc'⟩ := hh'
    refine .inl ⟨⟨w, hw, hw'⟩, hr, hr', [], _, _, rfl, rfl, c.reader.top, c'.reader.top, ts, ?_⟩
    exact ⟨congrArg (List.cons _) hb, congrArg (List.cons _) hb', hf, hf', hc'.trans hc.symm⟩

end

end Cursor

namespace Configuration

section
variable {ctx : Context} {settings : Settings} {config : Configuration}

/-- Readings that go on in sources with the same words and comments ahead. -/
theorem run_of_paired_resumed {c c' : Cursor} (h : (resumed settings).pairing.Paired c c') :
    unlocated (run ctx config c').ending = unlocated (run ctx config c).ending := by
  have hsame : config.mapComments id = config.mapComments id := rfl
  rcases run_of_paired _ ctx h hsame with
    (h | ⟨hl, -⟩) | ⟨config₁, config₁', c₁, c₁', ⟨hw, hw'⟩, h₁, hrun, hrun'⟩
  · exact h.unlocated
  · exact hl.elim
  · rw [mapComments_id, mapComments_id] at h₁
    rw [hrun, hrun', h₁, run_of_none hw, run_of_none hw']
    rfl

/-- Cursors with the same words and comments ahead. -/
theorem run_of_resumed {tail : List (Option String × String)} {c c' : Cursor}
    (hc : c.Stands settings tail) (hc' : c'.Stands settings tail) :
    unlocated (run ctx config c').ending = unlocated (run ctx config c).ending :=
  run_of_paired_resumed (Cursor.paired_resumed hc hc')

/-- A source without comments, and the same source going on with a directive. -/
theorem run_of_continued (ctx : Context) (config : Configuration)
    {tail : List (Option String × String)} {ws : List String} {c c' : Cursor}
    (ht : startsNext tail = true) (hc : c.Stands settings (ws.map (Prod.mk none)))
    (hc' : c'.Stands settings (ws.map (Prod.mk none) ++ tail)) :
    (∃ config₁ e, (run ctx config c).ending = (config₁, .error e) ∧
        unlocated (run ctx config c').ending = unlocated (run ctx config c).ending) ∨
      ∃ config₁ c₁, (run ctx config c).ending = (config₁, .ok ()) ∧ c₁.Stands settings tail ∧
        run ctx config c' = run ctx config₁ c₁ := by
  have hsame : config.mapComments id = config.mapComments id := rfl
  rcases run_of_paired _ ctx (Cursor.paired_continued ht hc hc') hsame with
    (h | ⟨hl, -⟩) | ⟨config₁, config₁', c₁, c₁', ⟨hw, hstands⟩, h₁, hrun, hrun'⟩
  · obtain ⟨hconfig, hr⟩ := h
    refine .inl ?_
    rcases hrun : run ctx config c with ⟨config₁, ⟨u, c₁⟩ | ⟨e, c₁⟩⟩
    · rw [hrun] at hr
      obtain ⟨-, -, hfalse⟩ := hr.of_ok
      exact hfalse.elim
    · exact ⟨config₁, e, rfl, hrun ▸ Alike.unlocated ⟨hconfig, hr⟩⟩
  · exact hl.elim
  · rw [mapComments_id, mapComments_id] at h₁
    subst h₁
    refine .inr ⟨config₁', c₁', ?_, hstands, hrun'⟩
    rw [hrun, run_of_none hw]
    rfl

theorem readInto_of_cursor {source : Source} {c : Cursor}
    (hc : Cursor.ofReader (.ofSource source settings) = .ok c) :
    readInto ctx settings config source = (run ctx config c).ending := by
  rw [readInto, hc]

/-- **Reading goes on where it ended.** A text without comments is followed by a text that starts
with a directive, if with anything. If reading the first one succeeds, reading both is reading the
second into what has been read; if it fails, reading both fails in the same way. -/
theorem readInto_append {ctx : Context} {settings : Settings} {config : Configuration}
    {first second : String} (hfirst : '#' ∉ first.toList)
    (hsecond : startsNext (Word.ofText settings.pathSeparator second) = true)
    (name firstName secondName : String) :
    (∀ config₁, readInto ctx settings config (.ofText firstName first) = (config₁, .ok ()) →
      unlocated (readInto ctx settings config (.ofText name (first ++ "\n" ++ second))) =
        unlocated (readInto ctx settings config₁ (.ofText secondName second))) ∧
    ∀ config₁ e, readInto ctx settings config (.ofText firstName first) = (config₁, .error e) →
      ∃ e', readInto ctx settings config (.ofText name (first ++ "\n" ++ second)) =
        (config₁, .error e') ∧ e'.cause = e.cause := by
  obtain ⟨c, hc, hs⟩ := Cursor.stands_of_text settings firstName first
  obtain ⟨c', hc', hs'⟩ := Cursor.stands_of_text settings name (first ++ "\n" ++ second)
  obtain ⟨c₂, hc₂, hs₂⟩ := Cursor.stands_of_text settings secondName second
  rw [Word.ofText_of_notMem hfirst] at hs
  rw [Word.ofText_append_of_notMem hfirst] at hs'
  simp only [readInto_of_cursor hc, readInto_of_cursor hc', readInto_of_cursor hc₂]
  rcases run_of_continued ctx config hsecond hs hs' with
    ⟨config₁, e, hrun, hsame⟩ | ⟨config₁, c₁, hrun, hstands, hrun'⟩
  · refine ⟨fun config₂ h => ?_, fun config₂ e₂ h => unlocated_of_error hsame h⟩
    rw [hrun] at h
    cases h
  · refine ⟨fun config₂ h => ?_, fun config₂ e₂ h => ?_⟩
    · rw [hrun] at h
      cases h
      rw [hrun']
      exact run_of_resumed hs₂ hstands
    · rw [hrun] at h
      cases h

theorem readInto_append_short :
    (readInto bareContext {} {} (.ofText "first" "-verbose") = ({ verbose := true }, .ok ()) ∧
      unlocated (readInto bareContext {} {} (.ofText "both" ("-verbose" ++ "\n" ++ "-injars"))) =
        unlocated (readInto bareContext {} { verbose := true } (.ofText "second" "-injars"))) ∧
    ∃ e, readInto bareContext {} {} (.ofText "both" ("-injars" ++ "\n" ++ "-verbose")) =
        ({}, .error e) ∧ e.cause = .rejected (.expected .pathEntry) := by
  have hswitch : Directive.lookup? "-verbose" = some ("-verbose", .switch .verbose) := by decide
  have hpath : Directive.lookup? "-injars" = some ("-injars", .classPath .inJars) := by decide
  have hverbose :
      readInto bareContext {} {} (.ofText "first" "-verbose") = ({ verbose := true }, .ok ()) := by
    obtain ⟨c, hc, hp, -⟩ := Cursor.poised_of_text {} "first" "-verbose"
    have hp : c.Poised {} ["-verbose"] := hp
    obtain ⟨c₁, hrun⟩ := run_of_last hp hswitch (by simp) .switch {}
    rw [readInto_of_cursor hc, hrun]
    rfl
  obtain ⟨e, hinjars, hcause⟩ : ∃ e,
      readInto bareContext {} {} (.ofText "first" "-injars") = ({}, .error e) ∧
        e.cause = .rejected (.expected .pathEntry) := by
    obtain ⟨c, hc, hp, -⟩ := Cursor.poised_of_text {} "first" "-injars"
    have hp : c.Poised {} ["-injars"] := hp
    obtain ⟨c₁, h₁, hp₁⟩ := (hp.dispatched "-injars" "-injars").advance
    rw [readInto_of_cursor hc, run_of_some hp.1.word, step_eq_of_lookup? hpath, apply,
      ClassPath.parser_of_atEnd h₁ hp₁.1.atEnd]
    exact ⟨_, rfl, rfl⟩
  refine ⟨⟨hverbose, ?_⟩, ?_⟩
  · exact (readInto_append (by decide) (by decide) _ _ _).1 _ hverbose
  · obtain ⟨e', he', hsame⟩ := (@readInto_append bareContext {} {} "-injars" "-verbose" (by decide)
      (by decide) "both" "first" "second").2 _ _ hinjars
    exact ⟨e', he', hsame.trans hcause⟩

end

end Configuration

end KeepRules
