import KeepRules.Proofs.Configuration.Continuation
import KeepRules.Proofs.Configuration.Printing
import KeepRules.Proofs.Configuration.Steps
import KeepRules.Proofs.Configuration.Texts

/-! # Includes and inlined texts

Including a file comes to the same as writing its text in place of the include, if the text starts
with a directive: the words are the same, however they are spread over open sources. A directive may
begin in the file and go on after it. Only the limit on open includes can tell the two apart.

* `flattened`: the foundation for two stacks with the same words ahead up to a directive.
* `run_of_poised`: cursors with the same words ahead, whatever the sources.
* `run_of_include`: an include, and the words of the included text.
* `readInto_include`: the text with the include and the text with the file inlined. -/

set_option autoImplicit false

namespace KeepRules

open KeepRules.Parser

open Cursor (Poised)

/-! ## Stacks with the same words -/

/-- Two stacks with the same words ahead, up to where each goes on in its own way, with a directive
if at all. -/
def flattened (settings : Settings) {tail tail' : List String}
    (ht : tail.head?.all Directive.starts = true) (ht' : tail'.head?.all Directive.starts = true) :
    Foundation settings (fun _ => none) True where
  Rel b b' := ∃ ws : List String, Frame.Lists settings.pathSeparator b (ws ++ tail) ∧
    Frame.Lists settings.pathSeparator b' (ws ++ tail')
  Beyond c c' := c.Poised settings tail ∧ c'.Poised settings tail'
  ne_nil := by
    rintro b b' ⟨ws, hb, hb'⟩
    exact ⟨hb.ne_nil, hb'.ne_nil⟩
  next := by
    rintro r r' hr hr' ⟨ws, hb, hb'⟩
    obtain ⟨r₁, hn, hp⟩ := Reader.next_of_lists hr hb
    obtain ⟨r₁', hn', hp'⟩ := Reader.next_of_lists hr' hb'
    refine ⟨_, _, r₁, r₁', hn, hn', ?_⟩
    cases ws with
    | nil => exact .inr ⟨hp, hp'⟩
    | cons w ws =>
      refine .inl ⟨⟨w, rfl, rfl⟩, ws, ?_, ?_⟩
      · exact (Cursor.ahead_iff_lists hp.2).1 hp.1.rest
      · exact (Cursor.ahead_iff_lists hp'.2).1 hp'.1.rest
  ended := by
    rintro c c' ⟨hc, hc'⟩
    exact ⟨hc.1.atEnd.trans ht, hc'.1.atEnd.trans ht'⟩
  comments _ := rfl
  takes := by
    rintro f f' b b' ⟨ws, hb, hb'⟩
    exact ⟨ws, hb.takes, hb'.takes⟩
  height := .inl trivial

section
variable {settings : Settings} {tail tail' : List String}

theorem Cursor.paired_flattened {ws : List String} {c c' : Cursor}
    (ht : tail.head?.all Directive.starts = true) (ht' : tail'.head?.all Directive.starts = true)
    (hc : c.Poised settings (ws ++ tail)) (hc' : c'.Poised settings (ws ++ tail')) :
    (flattened settings ht ht').pairing.Paired c c' := by
  cases ws with
  | nil => exact .inr ⟨hc, hc'⟩
  | cons w ws =>
    refine .inl ⟨⟨w, hc.1.word, hc'.1.word⟩, hc.2, hc'.2, [], _, _, rfl, rfl, ws, ?_, ?_⟩
    · exact (Cursor.ahead_iff_lists hc.2).1 hc.1.rest
    · exact (Cursor.ahead_iff_lists hc'.2).1 hc'.1.rest

end

/-! ## An include -/

namespace Configuration

section
variable {ctx : Context} {settings : Settings}

/-- The words of an included file come before what was ahead. -/
theorem includeFile_of_poised {c : Cursor} {keyword name text : String} {ws : List String}
    (hc : c.Poised settings (keyword :: name :: ws)) (hname : Directive.starts name = false)
    (href : '<' ∉ name.toList) (hopen : ctx.host.openFile name = .ok (.file text.toUTF8)) :
    settings.maxIncludeDepth ≤ c.reader.depth ∧ TooDeep (includeFile ctx c) ∨
      ∃ c', includeFile ctx c = .ok () c' ∧
        c'.Poised settings (Word.list settings.pathSeparator text ++ ws) := by
  obtain ⟨c₁, h₁, hp₁⟩ := hc.advance
  have hread : readWord .fileName c = .ok name c₁ := readWord_eq_ok.2 ⟨h₁, hp₁.1.word, hname⟩
  have hnames : Names ctx c name c₁ := ⟨name, hread, Context.replace_of_notMem href⟩
  rw [includeFile_of_names hnames (Source.ofFile_toUTF8 hopen), bind_apply]
  rcases tooDeep_or_entered hp₁.2 (.ofText name text) with
    ⟨hd, location, c₂, h₂⟩ | ⟨c₂, h₂, -, hs₂, hstack, -⟩
  · rw [h₂]
    have hle := Reader.depth_of_next (Cursor.advance_eq_ok.1 h₁)
    exact .inl ⟨Nat.le_trans hd hle, _, location, c₂, rfl⟩
  · have hahead := (Cursor.ahead_iff_lists hp₁.2).1 hp₁.1.rest
    have hlists : Frame.Lists settings.pathSeparator c₂.reader.stack
        (Word.list settings.pathSeparator text ++ ws) := by
      rw [hstack]
      refine ⟨List.cons_ne_nil _ _, ?_, fun f hf => ?_⟩
      · rw [List.flatMap_cons, hahead.ahead, Frame.ahead_of_text, List.map_append]
        rfl
      · rcases List.mem_cons.1 hf with rfl | hf
        · rfl
        · exact hahead.faultless f hf
    obtain ⟨r', hn, hp'⟩ := Reader.next_of_lists hs₂ hlists
    right
    rw [h₂]
    exact ⟨_, Cursor.advance_eq_ok.2 hn, hp'⟩

/-- Below the limit, an include is its words. -/
theorem run_of_include_below {c : Cursor} {keyword name text : String} {ws : List String}
    (hkeyword : Directive.lookup? keyword = some (keyword, .includeFile))
    (hc : c.Poised settings (keyword :: name :: ws)) (hname : Directive.starts name = false)
    (href : '<' ∉ name.toList) (hopen : ctx.host.openFile name = .ok (.file text.toUTF8))
    (hdepth : c.reader.depth < settings.maxIncludeDepth) (config : Configuration) :
    ∃ c', c'.Poised settings (Word.list settings.pathSeparator text ++ ws) ∧
      run ctx config c = run ctx config c' := by
  rw [run_of_some hc.1.word, step_eq_of_lookup? hkeyword, apply]
  rcases includeFile_of_poised (hc.dispatched keyword keyword) hname href hopen with
    ⟨hdeep, -⟩ | ⟨c', h', hp'⟩
  · exact absurd hdepth (Nat.not_lt.2 hdeep)
  · rw [h']
    exact ⟨c', hp', rfl⟩

/-- Cursors with the same words ahead, whatever the sources. -/
theorem run_of_poised {config config' : Configuration} {c c' : Cursor} {ws : List String}
    (hconfig : config'.uncommented = config.uncommented) (hc : c.Poised settings ws)
    (hc' : c'.Poised settings ws) :
    AlikeOr (fun _ => none) True (fun _ _ => True) (run ctx config c) (run ctx config' c') := by
  have hnil : ([] : List String).head?.all Directive.starts = true := rfl
  rw [← List.append_nil ws] at hc hc'
  rcases run_of_paired _ ctx (Cursor.paired_flattened hnil hnil hc hc') hconfig with
    h | ⟨config₁, config₁', c₁, c₁', ⟨hp, hp'⟩, h₁, hrun, hrun'⟩
  · exact h.imp_left fun h => ⟨h.config, h.result.imp fun _ _ _ => False.elim⟩
  · rw [hrun, hrun', run_of_none hp.1.word, run_of_none hp'.1.word]
    exact .inl ⟨h₁, .ok trivial⟩

/-- An include, and the words of the included text in its place. -/
theorem run_of_include (config : Configuration) {c c' : Cursor} {keyword name text : String}
    {before after : List String}
    (hkeyword : Directive.lookup? keyword = some (keyword, .includeFile))
    (hstarts : Directive.starts keyword = true) (hname : Directive.starts name = false)
    (href : '<' ∉ name.toList) (hopen : ctx.host.openFile name = .ok (.file text.toUTF8))
    (htext : ∃ w ∈ (Word.list settings.pathSeparator text).head?, Directive.starts w = true)
    (hc : c.Poised settings (before ++ keyword :: name :: after))
    (hc' : c'.Poised settings (before ++ (Word.list settings.pathSeparator text ++ after))) :
    AlikeOr (fun _ => none) True (fun _ _ => True) (run ctx config c) (run ctx config c') := by
  have htail : (keyword :: name :: after).head?.all Directive.starts = true := hstarts
  have htail' :
      (Word.list settings.pathSeparator text ++ after).head?.all Directive.starts = true := by
    obtain ⟨w, hw, hs⟩ := htext
    rw [List.head?_append, Option.mem_def.1 hw]
    exact hs
  have hsame : config.uncommented = config.uncommented := rfl
  rcases run_of_paired _ ctx (Cursor.paired_flattened htail htail' hc hc') hsame with
    h | ⟨config₁, config₁', c₁, c₁', ⟨hp, hp'⟩, h₁, hrun, hrun'⟩
  · exact h.imp_left fun h => ⟨h.config, h.result.imp fun _ _ _ => False.elim⟩
  · -- both have come to the include
    rw [hrun, hrun', run_of_some hp.1.word, step_eq_of_lookup? hkeyword, apply]
    rcases includeFile_of_poised (hp.dispatched keyword keyword) hname href hopen with
      ⟨-, limit, location, c₂, h₂⟩ | ⟨c₂, h₂, hp₂⟩
    · rw [h₂]
      exact .inr ⟨trivial, .inl ⟨limit, location, c₂, rfl⟩⟩
    · rw [h₂]
      exact run_of_poised h₁ hp₂ hp'

end

/-! ## Texts -/

/-- The file of this name holds the text. The name is a single word without references that is no
option, and the text starts with a directive. -/
structure Includable (ctx : Context) (settings : Settings) (name text : String) : Prop where
  word : Word.IsWord settings.pathSeparator name
  undelimited : ∀ d ∈ name.toList, Word.isDelimiter settings.pathSeparator d = false
  literal : '<' ∉ name.toList
  notOption : name.toList.head? ≠ some '-'
  opens : ctx.host.openFile name = .ok (.file text.toUTF8)
  starts : ∃ w ∈ (Word.list settings.pathSeparator text).head?, Directive.starts w = true

/-- The lines that include a file. The longer one is for separators that leave its keyword whole. -/
inductive IncludeLine (settings : Settings) (name : String) : String → Prop where
  | short : IncludeLine settings name ("@" ++ name)
  | long : settings.pathSeparator ∉ "-include".toList →
      IncludeLine settings name ("-include" ++ " " ++ name)

/-- Reading has failed because includes are nested too deep. -/
def EndsTooDeep (o : Configuration × Except ParseError Unit) : Prop :=
  ∃ limit location, o.2 = .error (.rejected (.nestedTooDeep limit) location)

theorem not_endsTooDeep {config : Configuration} : ¬EndsTooDeep (config, .ok ()) := by
  rintro ⟨limit, location, h⟩
  cases h

theorem TooDeep.ending {o : Outcome} (h : TooDeep o.2) : EndsTooDeep o.ending := by
  obtain ⟨config, r⟩ := o
  obtain ⟨limit, location, c, rfl⟩ := h
  exact ⟨limit, location, rfl⟩

section
variable {ctx : Context} {settings : Settings} {name text line : String}

theorem Includable.notStart (h : Includable ctx settings name text) :
    Directive.starts name = false := by
  have hat : name ≠ "@" := by
    rintro rfl
    have hd := h.undelimited '@' (by decide)
    simp [Word.isDelimiter, Word.delimiters] at hd
  simp [Directive.starts, h.notOption, hat]

theorem IncludeLine.spells (h : IncludeLine settings name line)
    (hname : Word.IsWord settings.pathSeparator name) :
    ∃ keyword, Word.Spells settings.pathSeparator line [keyword, name] ∧
      Directive.lookup? keyword = some (keyword, .includeFile) ∧
      Directive.starts keyword = true := by
  cases h with
  | short =>
    have hd : Word.isDelimiter settings.pathSeparator '@' = true := by
      simp [Word.isDelimiter, Word.delimiters]
    refine ⟨"@", ?_, by decide, by decide⟩
    exact Word.Spells.empty.delimiter rfl hd (by decide) (by decide) (Word.Spells.word hname)
  | long hsep =>
    have hdelim : ("-include".toList.all fun c => c ∉ Word.delimiters) = true := by decide
    refine ⟨"-include", (Word.Spells.word ?_).space (Word.Spells.word hname), by decide, by decide⟩
    refine Word.isWord_iff.2 ⟨by decide, by decide, by decide, .inr ?_⟩
    refine List.all_eq_true.2 fun c hc => ?_
    have hne : c ≠ settings.pathSeparator := fun he => hsep (he ▸ hc)
    have hout : c ∉ Word.delimiters := of_decide_eq_true (List.all_eq_true.1 hdelim c hc)
    simp [Word.isDelimiter, hne, hout]

/-- **An include means its text.** Unless includes are nested too deep, reading a text with an
include and reading it with the file inlined end in the same way, with the same configuration up to
the comments of its rules. -/
theorem readInto_include {ctx : Context} {settings : Settings} {config : Configuration}
    {first second name text line : String} (hfile : Includable ctx settings name text)
    (hline : IncludeLine settings name line) (root root' : String)
    {o o' : Configuration × Except ParseError Unit}
    (ho : readInto ctx settings config
      (.ofText root (first ++ "\n" ++ line ++ "\n" ++ second)) = o)
    (ho' : readInto ctx settings config
      (.ofText root' (first ++ "\n" ++ text ++ "\n" ++ second)) = o')
    (hdeep : ¬EndsTooDeep o) (hdeep' : ¬EndsTooDeep o') :
    o'.1.uncommented = o.1.uncommented ∧
      o'.2.mapError ParseError.cause = o.2.mapError ParseError.cause := by
  obtain ⟨keyword, hspells, hkeyword, hstarts⟩ := hline.spells hfile.word
  obtain ⟨c, hc, hp, -⟩ :=
    Cursor.poised_of_text settings root (first ++ "\n" ++ line ++ "\n" ++ second)
  obtain ⟨c', hc', hp', -⟩ :=
    Cursor.poised_of_text settings root' (first ++ "\n" ++ text ++ "\n" ++ second)
  rw [Word.list_append, Word.list_append, List.append_assoc, hspells.list] at hp
  rw [Word.list_append, Word.list_append, List.append_assoc] at hp'
  rw [readInto_of_cursor hc] at ho
  rw [readInto_of_cursor hc'] at ho'
  subst ho ho'
  rcases run_of_include config hkeyword hstarts hfile.notStart
      hfile.literal hfile.opens hfile.starts hp hp' with h | ⟨-, h | h⟩
  · exact h.ending
  · exact absurd h.ending hdeep
  · exact absurd h.ending hdeep'

theorem run_of_dump {c : Cursor} (hc : c.Poised settings ["-dump", "a"]) :
    (run ctx {} c).ending = ({ dump := some "a" }, .ok ()) := by
  have hlook : Directive.lookup? "-dump" = some ("-dump", .text .dump) := by decide
  obtain ⟨c', hrun⟩ := run_of_last hc hlook (by simp) (.text (by decide)) {}
  rw [hrun]
  rfl

/-- The directive begins in the file and ends after it. -/
theorem readInto_include_straddling :
    (Includable (fileContext "n" "-dump") {} "n" "-dump" ∧ IncludeLine {} "n" "@n") ∧
      ∃ o o', readInto (fileContext "n" "-dump") {} {}
          (.ofText "with" ("" ++ "\n" ++ "@n" ++ "\n" ++ "a")) = o ∧
        readInto (fileContext "n" "-dump") {} {}
          (.ofText "without" ("" ++ "\n" ++ "-dump" ++ "\n" ++ "a")) = o' ∧
        o = ({ dump := some "a" }, .ok ()) ∧
        o'.1.uncommented = o.1.uncommented ∧
        o'.2.mapError ParseError.cause = o.2.mapError ParseError.cause := by
  have hfile : Includable (fileContext "n" "-dump") {} "n" "-dump" :=
    ⟨by decide, by simp [Word.isDelimiter, Word.delimiters], by decide, by decide, rfl, "-dump",
      by decide, by decide⟩
  have hlook : Directive.lookup? "@" = some ("@", .includeFile) := by decide
  have hwith : readInto (fileContext "n" "-dump") {} {}
      (.ofText "with" ("" ++ "\n" ++ "@n" ++ "\n" ++ "a")) = ({ dump := some "a" }, .ok ()) := by
    obtain ⟨c, hc, hp, hd⟩ := Cursor.poised_of_text {} "with" ("" ++ "\n" ++ "@n" ++ "\n" ++ "a")
    have hp : c.Poised {} ["@", "n", "a"] := hp
    obtain ⟨c₂, hp₂, hrun⟩ := run_of_include_below hlook hp hfile.notStart hfile.literal hfile.opens
      (hd ▸ by decide) {}
    rw [readInto_of_cursor hc, hrun]
    exact run_of_dump hp₂
  have hwithout : readInto (fileContext "n" "-dump") {} {}
      (.ofText "without" ("" ++ "\n" ++ "-dump" ++ "\n" ++ "a")) =
        ({ dump := some "a" }, .ok ()) := by
    obtain ⟨c, hc, hp, -⟩ :=
      Cursor.poised_of_text {} "without" ("" ++ "\n" ++ "-dump" ++ "\n" ++ "a")
    rw [readInto_of_cursor hc]
    exact run_of_dump hp
  refine ⟨⟨hfile, .short⟩, _, _, hwith, hwithout, rfl, ?_⟩
  exact readInto_include hfile .short _ _ hwith hwithout not_endsTooDeep not_endsTooDeep

/-- A separator that occurs in the keyword cuts it up: its first part still stands for an include,
and the separator itself is then taken for the name of the file. -/
theorem readInto_include_cut_keyword :
    Includable (fileContext "n" "-verbose") { pathSeparator := 'c' } "n" "-verbose" ∧
      readInto (fileContext "n" "-verbose") { pathSeparator := 'c' } {}
        (.ofText "with" ("" ++ "\n" ++ "-include n" ++ "\n" ++ "")) =
          ({}, .error (.unreadable (.file "c") .notFound)) ∧
      readInto (fileContext "n" "-verbose") { pathSeparator := 'c' } {}
        (.ofText "without" ("" ++ "\n" ++ "-verbose" ++ "\n" ++ "")) =
          ({ verbose := true }, .ok ()) := by
  have hlook : Directive.lookup? "-in" = some ("-include", .includeFile) := by decide
  have hlook' : Directive.lookup? "-verbose" = some ("-verbose", .switch .verbose) := by decide
  have hreplace : (fileContext "n" "-verbose").replace "c" = .ok "c" :=
    Context.replace_of_notMem (by decide)
  have hopen : Source.ofFile (fileContext "n" "-verbose").host "c" =
      .error (.unreadable (.file "c") .notFound) := rfl
  have hfile : Includable (fileContext "n" "-verbose") { pathSeparator := 'c' } "n" "-verbose" :=
    ⟨by decide, by simp [Word.isDelimiter, Word.delimiters], by decide, by decide, rfl, "-verbose",
      by decide, by decide⟩
  refine ⟨hfile, ?_, ?_⟩
  · obtain ⟨c, hc, hp, -⟩ := Cursor.poised_of_text { pathSeparator := 'c' } "with"
      ("" ++ "\n" ++ "-include n" ++ "\n" ++ "")
    have hp : c.Poised { pathSeparator := 'c' } ["-in", "c", "lude", "n"] := hp
    obtain ⟨c₁, h₁, hp₁⟩ := (hp.dispatched "-include" "-in").advance
    have hread : readWord .fileName (dispatched c "-include" "-in") = .ok "c" c₁ :=
      readWord_eq_ok.2 ⟨h₁, hp₁.1.word, by decide⟩
    have hsub : substitute (fileContext "n" "-verbose") "c" c₁ = .ok "c" c₁ :=
      substitute_eq_ok.2 ⟨hreplace, rfl⟩
    rw [readInto_of_cursor hc, run_of_some hp.1.word, step_eq_of_lookup? hlook, apply]
    simp [includeFile, bind_apply, hread, hsub, liftError, hopen, settle, Outcome.ending]
  · obtain ⟨c, hc, hp, -⟩ := Cursor.poised_of_text { pathSeparator := 'c' } "without"
      ("" ++ "\n" ++ "-verbose" ++ "\n" ++ "")
    have hp : c.Poised { pathSeparator := 'c' } ["-verbose"] := hp
    obtain ⟨c₁, hrun⟩ := run_of_last hp hlook' (by simp) .switch {}
    rw [readInto_of_cursor hc, hrun]
    rfl

end

end Configuration

end KeepRules
