import KeepRules.Proofs.Configuration.Continuation
import KeepRules.Proofs.Configuration.Printing
import KeepRules.Proofs.Configuration.Replay
import KeepRules.Proofs.Configuration.Texts

/-! # Files that include themselves

A file that is included while it is open is read again from its start, above all that was open. It
comes to the same include again, and so on, each time with more sources open, until the limit on
open includes is met.

* `Proceeds.replay`, `StaysAbove.replay`: directives that were read while a source stayed open
  succeed again when that source is opened above others, unless includes are nested too deep.
* `Opened`, `History`: every open file was opened in a way that can be repeated, and has stayed open
  since.
* `run_of_reopened`: opening the file once more leads to the limit.
* `readInto_of_cycle`: so does reading a source that includes an open file. -/

set_option autoImplicit false

namespace KeepRules.Configuration

open KeepRules.Parser

/-- Reading has failed because includes are nested deeper than the settings allow. -/
def FailsTooDeep (settings : Settings) (o : Outcome) : Prop :=
  ∃ location c, o.2 = .error (.rejected (.nestedTooDeep settings.maxIncludeDepth) location) c

section
variable {ctx : Context} {settings : Settings} {lower lower' : List Frame}

/-! ## Directives, once more -/

theorem Includes.replay {c c' c₁ : Cursor} {name : String} (h : Includes ctx c name c₁)
    (hc : Rebased settings lower lower' c c') (hc₁ : c₁.reader.Above lower) :
    ∃ c₁', Includes ctx c' name c₁' ∧ Rebased settings lower lower' c₁ c₁' := by
  obtain ⟨word, keyword, hw, hl, v, hr, hs⟩ := h
  obtain ⟨hread, hstart⟩ := readWord_iff.1 hr
  obtain ⟨c₁', hread', hc₁'⟩ := (hc.dispatched keyword word).reads hread hc₁
  refine ⟨c₁', ⟨word, keyword, hc.word.trans hw, hl, v, ?_, hs⟩, hc₁'⟩
  exact readWord_iff.2 ⟨hread', hstart⟩

/-- An include goes on in its file, or it meets the limit. -/
theorem Includes.run {c c₁ : Cursor} {name : String} {source : Source} (h : Includes ctx c name c₁)
    (hc₁ : c₁.reader.Follows settings) (ho : Source.ofFile ctx.host name = .ok source)
    (config : Configuration) :
    FailsTooDeep settings (run ctx config c) ∨ ∃ c₂, Entered settings source c₁ c₂ := by
  obtain ⟨word, keyword, hw, hl, hn⟩ := h
  refine (tooDeep_or_entered hc₁ source).imp_left ?_
  rintro ⟨-, location, c₂, he⟩
  rw [run_of_some hw, step_eq_of_lookup? hl, apply, includeFile_of_names hn ho, bind_apply, he]
  exact ⟨location, c₂, rfl⟩

/-- What is read above the lower sources is included above them. -/
theorem Includes.above {c c' c₁ c₂ : Cursor} {name : String} {source : Source}
    (h : Includes ctx c name c₁) (hc : Rebased settings lower lower' c c')
    (he : Entered settings source c₁ c₂) (hc₂ : c₂.reader.Above lower) :
    c₁.reader.Above lower := by
  obtain ⟨word, keyword, v, hr⟩ := h.reads
  obtain ⟨upper, hne, hs⟩ := hc₂
  rw [he.stack] at hs
  cases upper with
  | nil => exact absurd rfl hne
  | cons f upper =>
    obtain ⟨-, hs⟩ := List.cons.inj hs
    refine ⟨upper, ?_, hs⟩
    rintro rfl
    exact hr.stack_ne (hc.dispatched keyword word).above hs

/-- A directive that is read above the lower sources can be read above others. -/
theorem Proceeds.replay {c c' d : Cursor} (h : Proceeds ctx c d)
    (hc : Rebased settings lower lower' c c') {w : String} (hw : d.word = some w)
    (hd : d.reader.Above lower) (config : Configuration) :
    FailsTooDeep settings (run ctx config c') ∨
      ∃ d', Proceeds ctx c' d' ∧ Rebased settings lower lower' d d' := by
  cases h with
  | @words word keyword _ ws hword hl hp hadmits =>
    obtain ⟨d', hp', hd'⟩ := (hc.dispatched keyword word).passes hp hw hd
    refine .inr ⟨d', .words (hc.word.trans hword) hl hp' ?_, hd'⟩
    rw [hd'.word, hc.follows'.1, ← hc.follows.1]
    exact hadmits
  | @inclusion name source c₁ c₂ hincludes ho he ha =>
    have he := entered_of_enter (hincludes.later.follows hc.follows) he
    have hc₂ := (Reader.Later.of_next (Cursor.advance_eq_ok.1 ha)).above hd
    have hc₁ := hincludes.above hc he hc₂
    obtain ⟨c₁', hincludes', hc₁'⟩ := hincludes.replay hc hc₁
    refine (hincludes'.run hc₁'.follows' ho config).imp_right ?_
    rintro ⟨c₂', he'⟩
    obtain ⟨d', ha', hd'⟩ := (hc₁'.entered he he').advance ha hw hd
    exact ⟨d', .inclusion hincludes' ho he'.enter ha', hd'⟩

/-- Directives are read one after the other, with the lower sources always below. -/
inductive StaysAbove (ctx : Context) (lower : List Frame) (c₀ : Cursor) : Cursor → Prop where
  | refl : StaysAbove ctx lower c₀ c₀
  | step {c c' : Cursor} {w : String} : StaysAbove ctx lower c₀ c → Proceeds ctx c c' →
      c'.word = some w → c'.reader.Above lower → StaysAbove ctx lower c₀ c'

theorem StaysAbove.replay {c₀ c₀' c : Cursor} (h : StaysAbove ctx lower c₀ c)
    (hc₀ : Rebased settings lower lower' c₀ c₀') (config : Configuration) :
    FailsTooDeep settings (run ctx config c₀') ∨
      ∃ config' c', run ctx config c₀' = run ctx config' c' ∧
        Rebased settings lower lower' c c' := by
  induction h with
  | refl => exact .inr ⟨config, c₀', rfl, hc₀⟩
  | step _ hp hw habove ih =>
    rcases ih with ih | ⟨config₁, c₁, hrun, hc₁⟩
    · exact .inl ih
    · rw [hrun]
      rcases hp.replay hc₁ hw habove config₁ with hdeep | ⟨c', hp', hc'⟩
      · exact .inl hdeep
      · obtain ⟨word, config', hword, hstep⟩ := hp'.step config₁
        refine .inr ⟨config', c', ?_, hc'⟩
        rw [run_of_some hword, hstep]

/-! ## Open files -/

/-- The cursor is at the first word of the file, which has been put on top of the lower sources. -/
structure Opened (ctx : Context) (settings : Settings) (name : String) (lower : List Frame)
    (c : Cursor) : Prop where
  start : ∃ (source : Source) (r : Reader),
    Source.ofFile ctx.host name = .ok source ∧ r.Follows settings ∧
      r.stack = { source := source } :: lower ∧ r.next = .ok c.word c.reader
  word : c.word.isSome = true
  above : c.reader.Above lower

/-- The file can be opened again, on top of other sources. -/
theorem Opened.again {name : String} {c : Cursor} {source : Source}
    (h : Opened ctx settings name lower c) (ho : Source.ofFile ctx.host name = .ok source)
    {r : Reader} (hr : r.Follows settings) (hs : r.stack = { source := source } :: lower') :
    ∃ c', r.next = .ok c'.word c'.reader ∧ Rebased settings lower lower' c c' := by
  obtain ⟨⟨source₀, r₀, ho₀, hr₀, hs₀, hn₀⟩, hw, habove⟩ := h
  obtain rfl : source = source₀ := Except.ok.inj (ho.symm.trans ho₀)
  obtain ⟨w, hw⟩ := Option.isSome_iff_exists.1 hw
  have hstart : Rebased settings lower lower' ⟨r₀, none⟩ ⟨r, none⟩ :=
    ⟨rfl, hr₀, hr, [{ source := source }], List.cons_ne_nil _ _, hs₀, hs⟩
  obtain ⟨c', ha, hc'⟩ := hstart.advance (Cursor.advance_eq_ok.2 hn₀) hw habove
  exact ⟨c', Cursor.advance_eq_ok.1 ha, hc'⟩

section
variable {name : String} {c₀ c c₁ : Cursor}

/-- Where the open file is included again, it is read from its start above what is open then. -/
theorem run_of_included (hopened : Opened ctx settings name lower c₀)
    (hincludes : Includes ctx c name c₁) (hc₁ : c₁.reader.Above lower) {c' : Cursor}
    (hc' : Rebased settings lower lower' c c')
    (hagain : ∀ lower₁ c₀' config, lower₁.length ≤ settings.maxIncludeDepth →
      lower'.length < lower₁.length → Rebased settings lower lower₁ c₀ c₀' →
      FailsTooDeep settings (run ctx config c₀')) (config : Configuration) :
    FailsTooDeep settings (run ctx config c') := by
  obtain ⟨source, r, ho, -⟩ := hopened.start
  obtain ⟨c₁', hincludes', hc₁'⟩ := hincludes.replay hc' hc₁
  rcases hincludes'.run hc₁'.follows' ho config with hdeep | ⟨c₂', he⟩
  · exact hdeep
  · obtain ⟨d, hn, hd⟩ := hopened.again ho he.follows he.stack
    have hp : Proceeds ctx c' d := .inclusion hincludes' ho he.enter (Cursor.advance_eq_ok.2 hn)
    obtain ⟨word, config', hword, hstep⟩ := hp.step config
    rw [run_of_some hword, hstep]
    refine hagain _ d config' ?_ ?_ hd
    · exact he.depth
    · obtain ⟨upper, hne, -, hs⟩ := hc₁'.frames
      have hpos := List.length_pos_iff.2 hne
      rw [hs, List.length_append]
      omega

/-- **A file that comes back to its own include ends at the limit**, whatever it is opened above:
each time it is opened above more sources. -/
theorem run_of_reopened (hopened : Opened ctx settings name lower c₀)
    (hstays : StaysAbove ctx lower c₀ c) (hincludes : Includes ctx c name c₁)
    (hc₁ : c₁.reader.Above lower) {c₀' : Cursor} (hc₀' : Rebased settings lower lower' c₀ c₀')
    (config : Configuration) : FailsTooDeep settings (run ctx config c₀') := by
  generalize hn : settings.maxIncludeDepth - lower'.length = n
  induction n using Nat.strongRecOn generalizing lower' c₀' config with
  | ind n ih =>
    rcases hstays.replay hc₀' config with hdeep | ⟨config', c', hrun, hc'⟩
    · exact hdeep
    · rw [hrun]
      refine run_of_included hopened hincludes hc₁ hc' ?_ config'
      intro lower₁ d config₁ hle hlt hd
      exact ih _ (by omega) hd config₁ rfl

end

/-- The source comes from the file: the root is the file, or the source has been included. -/
def ComesFrom (ctx : Context) (root : Source) (name : String) (f : Frame)
    (lower : List Frame) : Prop :=
  lower = [] ∧ Source.ofFile ctx.host name = .ok root ∨
    lower ≠ [] ∧ f.source.origin = .file name

/-- Every file that is open was opened from its start and has stayed open since. -/
structure History (ctx : Context) (settings : Settings) (root : Source) (c : Cursor) : Prop where
  follows : c.reader.Follows settings
  opened : ∀ {upper lower : List Frame} {f : Frame} {name : String},
    c.reader.stack = upper ++ f :: lower → ComesFrom ctx root name f lower →
    ∃ c₀, Opened ctx settings name lower c₀ ∧ StaysAbove ctx lower c₀ c

section
variable {root : Source} {c c' : Cursor}

theorem history_of_root {w : String}
    (h : Cursor.ofReader (.ofSource root settings) = .ok c) (hw : c.word = some w) :
    History ctx settings root c := by
  unfold Cursor.ofReader at h
  split at h
  · next word r hn =>
    cases h
    have hr : (Reader.ofSource root settings).Follows settings := ⟨rfl, rfl⟩
    have hb : r.below = [] := List.length_eq_zero_iff.1 (Nat.le_zero.1 (Reader.depth_of_next hn))
    refine ⟨hr.next hn, fun {upper lower f name} hs hfrom => ⟨_, ?_, .refl⟩⟩
    -- the root is alone
    obtain rfl : lower = [] := by
      have hlength := congrArg List.length hs
      simp only [Reader.stack, hb, List.length_append, List.length_cons, List.length_nil] at hlength
      exact List.length_eq_zero_iff.1 (by omega)
    obtain ⟨-, ho⟩ := hfrom.resolve_right fun h => h.1 rfl
    refine ⟨⟨root, _, ho, hr, rfl, hn⟩, by rw [hw]; rfl, Reader.above_of_stack hs⟩
  · cases h

/-- What is open after a directive was open before it, or it is the file that the directive
includes. -/
theorem History.proceeds {w : String} (h : History ctx settings root c) (hp : Proceeds ctx c c')
    (hw : c'.word = some w) : History ctx settings root c' := by
  -- an open source that was open before
  have hkept : ∀ {upper f lower name upper₀ f₀}, c'.reader.stack = upper ++ f :: lower →
      ComesFrom ctx root name f lower → c.reader.stack = upper₀ ++ f₀ :: lower →
      f₀.source.origin = f.source.origin →
      ∃ c₀, Opened ctx settings name lower c₀ ∧ StaysAbove ctx lower c₀ c' := by
    intro upper f lower name upper₀ f₀ hs hfrom hs₀ ho
    rw [ComesFrom, ← ho] at hfrom
    obtain ⟨c₀, hopened, hstays⟩ := h.opened hs₀ hfrom
    exact ⟨c₀, hopened, hstays.step hp hw (Reader.above_of_stack hs)⟩
  refine ⟨hp.follows h.follows, fun {upper lower f name'} hs hfrom => ?_⟩
  cases hp with
  | @words word keyword d ws hword hl hpasses _ =>
    have hlater := hpasses.later.trans (later_dispatched c keyword word)
    obtain ⟨upper₀, f₀, hs₀, ho⟩ := hlater.sources hs
    exact hkept hs hfrom hs₀ ho
  | @inclusion name source c₁ c₂ hincludes ho he ha =>
    have he := entered_of_enter (hincludes.later.follows h.follows) he
    obtain ⟨upper₂, f₂, hs₂, ho₂⟩ :=
      (Reader.Later.of_next (Cursor.advance_eq_ok.1 ha)).sources hs
    rw [he.stack] at hs₂
    cases upper₂ with
    | nil =>
      obtain ⟨rfl, rfl⟩ := List.cons.inj hs₂
      obtain ⟨-, horigin⟩ := hfrom.resolve_left fun h => List.cons_ne_nil _ _ h.1
      obtain rfl : name = name' := by
        rw [← ho₂, Source.origin_of_ofFile ho] at horigin
        exact Origin.file.inj horigin
      refine ⟨c', ⟨⟨source, _, ho, he.follows, he.stack, Cursor.advance_eq_ok.1 ha⟩, ?_, ?_⟩, .refl⟩
      · rw [hw]
        rfl
      · exact Reader.above_of_stack hs
    | cons g upper₁ =>
      obtain ⟨-, hs₁⟩ := List.cons.inj hs₂
      obtain ⟨upper₀, f₀, hs₀, ho₀⟩ := hincludes.later.sources hs₁
      exact hkept hs hfrom hs₀ (ho₀.trans ho₂)

theorem history_of_comes {config config' : Configuration}
    (hc : ∀ w, c.word = some w → History ctx settings root c)
    (h : Comes ctx config c config' c') {w : String} (hw : c'.word = some w) :
    History ctx settings root c' := by
  induction h with
  | refl => exact hc w hw
  | step hword hstep _ ih =>
    exact ih (fun w hw => (hc _ hword).proceeds (proceeds_of_step hword hstep) hw) hw

end

/-! ## Cycles -/

/-- A file of this name is open: it has been included, or it is the root. -/
def IsOpen (ctx : Context) (root : Source) (r : Reader) (name : String) : Prop :=
  (∃ f ∈ r.stack.dropLast, f.source.origin = .file name) ∨ Source.ofFile ctx.host name = .ok root

theorem IsOpen.comesFrom {root : Source} {r : Reader} {name : String}
    (h : IsOpen ctx root r name) :
    ∃ upper f lower, r.stack = upper ++ f :: lower ∧ ComesFrom ctx root name f lower := by
  have hs := List.dropLast_concat_getLast (List.cons_ne_nil r.top r.below)
  rcases h with ⟨f, hf, ho⟩ | ho
  · obtain ⟨upper, between, hd⟩ := List.append_of_mem hf
    refine ⟨upper, f, between ++ [r.stack.getLast (List.cons_ne_nil _ _)], ?_, .inr ⟨by simp, ho⟩⟩
    rw [← List.cons_append, ← List.append_assoc, ← hd]
    exact hs.symm
  · exact ⟨_, _, [], hs.symm, .inl ⟨rfl, ho⟩⟩

/-- **A file that is included while it is open leads to the limit on includes.** Reading neither
succeeds nor fails in any other way. -/
theorem readInto_of_cycle {ctx : Context} {settings : Settings} {root : Source}
    {config config₁ : Configuration} {c₀ c c₁ : Cursor} {name : String}
    (hstart : Cursor.ofReader (.ofSource root settings) = .ok c₀)
    (hcomes : Comes ctx config c₀ config₁ c) (hincludes : Includes ctx c name c₁)
    (hopen : IsOpen ctx root c₁.reader name) :
    ∃ reason location,
      (readInto ctx settings config root).2 = .error (.rejected reason location) ∧
        reason = .nestedTooDeep settings.maxIncludeDepth ∧
        reason.message =
          "Include nesting deeper than " ++ toString settings.maxIncludeDepth ++ " levels at" := by
  have hword : ∃ w, c.word = some w := by
    obtain ⟨w, -, hw, -⟩ := hincludes
    exact ⟨w, hw⟩
  obtain ⟨w, hw⟩ := hword
  have hhistory := history_of_comes (fun _ => history_of_root hstart) hcomes hw
  -- the file that is included is open, and has been read up to this include
  obtain ⟨upper₁, f₁, lower, hs₁, hfrom⟩ := hopen.comesFrom
  obtain ⟨upper, f, hs, ho⟩ := hincludes.later.sources hs₁
  rw [ComesFrom, ← ho] at hfrom
  obtain ⟨d, hopened, hstays⟩ := hhistory.opened hs hfrom
  have habove := Reader.above_of_stack hs₁
  have hdeep : FailsTooDeep settings (run ctx config₁ c) := by
    refine run_of_included hopened hincludes habove
      (.refl hhistory.follows (Reader.above_of_stack hs)) ?_ config₁
    exact fun _ _ config₂ _ _ hd => run_of_reopened hopened hstays hincludes habove hd config₂
  obtain ⟨location, c', hend⟩ := hdeep
  refine ⟨_, location, ?_, rfl, rfl⟩
  rw [readInto, hstart]
  show (run ctx config c₀).ending.2 = _
  rw [hcomes.run]
  rcases hrun : run ctx config₁ c with ⟨config₂, r⟩
  rw [hrun] at hend
  subst hend
  rfl

/-- The root is a file that includes itself after a directive of its own. -/
theorem readInto_of_cycle_verbose :
    ∃ root c₀ config₁ c c₁,
      Source.ofFile (fileContext "n" "-verbose\n@n").host "n" = .ok root ∧
      Cursor.ofReader (.ofSource root {}) = .ok c₀ ∧
      Comes (fileContext "n" "-verbose\n@n") {} c₀ config₁ c ∧
      Includes (fileContext "n" "-verbose\n@n") c "n" c₁ ∧
      IsOpen (fileContext "n" "-verbose\n@n") root c₁.reader "n" ∧
      ∃ reason location, (readInto (fileContext "n" "-verbose\n@n") {} {} root).2 =
          .error (.rejected reason location) ∧
        reason = .nestedTooDeep 32 ∧
        reason.message = "Include nesting deeper than 32 levels at" := by
  have hfile : Source.ofFile (fileContext "n" "-verbose\n@n").host "n" =
      .ok (.ofText "n" "-verbose\n@n") := Source.ofFile_toUTF8 rfl
  have hverbose : Directive.lookup? "-verbose" = some ("-verbose", .switch .verbose) := by decide
  have hinclude : Directive.lookup? "@" = some ("@", .includeFile) := by decide
  obtain ⟨c₀, hstart, hp₀, -⟩ := Cursor.poised_of_text {} "n" "-verbose\n@n"
  have hp₀ : c₀.Poised {} ["-verbose", "@", "n"] := hp₀
  obtain ⟨c, ha, hp⟩ := (hp₀.dispatched "-verbose" "-verbose").advance
  have hcomes : Comes (fileContext "n" "-verbose\n@n") {} c₀ { verbose := true } c := by
    refine .step hp₀.1.word ?_ .refl
    rw [step_eq_of_lookup? hverbose, apply, ha]
    rfl
  obtain ⟨c₁, ha₁, hp₁⟩ := (hp.dispatched "@" "@").advance
  have hincludes : Includes (fileContext "n" "-verbose\n@n") c "n" c₁ := by
    refine ⟨"@", "@", hp.1.word, hinclude, "n", ?_, Context.replace_of_notMem (by decide)⟩
    exact readWord_eq_ok.2 ⟨ha₁, hp₁.1.word, by decide⟩
  refine ⟨_, c₀, _, c, c₁, hfile, hstart, hcomes, hincludes, .inr hfile, ?_⟩
  exact readInto_of_cycle hstart hcomes hincludes (.inr hfile)

end

end KeepRules.Configuration
