import KeepRules.Proofs.Configuration.Printing

/-! # Class paths that are read back are writable

The converse of printing. The text of a class path in which no reference is left is read as a class
path only if its entries are words: reading stops at the first entry that is none, and what was read
until then stays the start of the class path.

* `ClassPath.writable_of_say`: entries that are read from words without references are writable.
* `path_of_run`: a run only adds to a class path.
* `writable_of_run`: a run over the line of one class path.
* `pathsWritable_of_ofSource`: a configuration that is read back from its text. -/

set_option autoImplicit false

namespace KeepRules

open Word (Spells IsSeparator)

/-! ## Words without references -/

/-- The word without references, as it can be read. -/
structure Word.IsBare (separator : Char) (word : String) : Prop
    extends IsWord separator word where
  notReference : '<' ∉ word.toList

namespace EntryPhrase

theorem eq_of_replaces {ctx : Context} {ws texts : List String}
    (hw : ∀ w ∈ ws, '<' ∉ w.toList) (h : Replaces ctx ws texts) : texts = ws := by
  have hok : ws.map ctx.replace = ws.map .ok :=
    List.map_inj_left.2 fun w hm => Context.replace_of_notMem (hw w hm)
  have hmap : texts.map Except.ok = ws.map (Except.ok (ε := PropertyError)) := h.symm.trans hok
  exact List.map_inj_right (fun _ _ he => Except.ok.inj he) |>.1 hmap

/-- The entry is written with as many words as it was read from; only the word after its filters
can differ. -/
theorem writable_of_says {separator : Char} {ctx : Context} {p : EntryPhrase} {e : PathEntry}
    (hv : p.Valid) (hs : p.Says ctx e) (hw : ∀ w ∈ p.words, Word.IsBare separator w) :
    e.Writable separator ∧
      ∃ ws, ws.length = p.words.length ∧ Spells separator e.print ws := by
  obtain ⟨word, filters⟩ := p
  obtain ⟨name, filter⟩ := e
  obtain ⟨hname, hfilter⟩ := hs
  have hword := hw word List.mem_cons_self
  obtain rfl : word = name :=
    Except.ok.inj ((Context.replace_of_notMem hword.notReference).symm.trans hname)
  have hlit : Word.IsLiteral separator word := ⟨⟨hword.toIsWord, hv.word⟩, hword.notReference⟩
  cases filters with
  | none =>
    obtain rfl : filter = none := hfilter
    exact ⟨⟨hlit, nofun⟩, [word], rfl, .word hword.toIsWord⟩
  | some q =>
    obtain ⟨fs, closing⟩ := q
    obtain ⟨texts, hrep, rfl⟩ := hfilter
    obtain ⟨hne, hfs, -, -⟩ := hv.filters
    have hbare : ∀ f ∈ fs, Word.IsBare separator f := by
      intro f hf
      refine hw f (List.mem_cons_of_mem _ (List.mem_cons_of_mem _ ?_))
      exact List.mem_append_left _ (Word.mem_intersperse hf)
    obtain rfl := eq_of_replaces (fun f hf => (hbare f hf).notReference) hrep
    refine ⟨⟨hlit, ?_⟩, EntryPhrase.words ⟨word, some (texts, ")")⟩, ?_, ?_⟩
    · rintro filter ⟨⟩
      exact ⟨texts, hne, fun f hf => ⟨⟨(hbare f hf).toIsWord, hfs f hf⟩,
        (hbare f hf).notReference⟩, rfl⟩
    · simp [words, filterWords]
    · exact PathEntry.spells_filtered hword.toIsWord fun f hf => (hbare f hf).toIsWord

end EntryPhrase

namespace ClassPath

theorem writable_of_say {separator : Char} (hs : IsSeparator separator) {ctx : Context}
    {es : List EntryPhrase} {path : ClassPath} (hv : ValidPhrases separator es)
    (hsay : Say ctx es path) (hw : ∀ w ∈ phraseWords separator es, Word.IsBare separator w) :
    (∀ e ∈ path, e.Writable separator) ∧
      ∃ ws, ws.length = (phraseWords separator es).length ∧
        Spells separator (print separator path) ws := by
  induction es generalizing path with
  | nil => exact hv.elim
  | cons p es ih =>
    obtain ⟨e, rest, hsays, hrest, rfl⟩ := hsay
    cases es with
    | nil =>
      obtain rfl : rest = [] := hrest
      have hp : phraseWords separator [p] = p.words := by simp [phraseWords]
      rw [hp] at hw ⊢
      obtain ⟨he, ws, hlen, hws⟩ := EntryPhrase.writable_of_says hv hsays hw
      refine ⟨fun d hd => List.mem_singleton.1 hd ▸ he, ws, hlen, ?_⟩
      simpa [print] using hws
    | cons p' es =>
      obtain ⟨hvp, -, -, hves⟩ := hv
      obtain ⟨e', rest', hsays', hrest', rfl⟩ := hrest
      rw [phraseWords_cons_cons] at hw ⊢
      obtain ⟨he, ws, hlen, hws⟩ := EntryPhrase.writable_of_says hvp hsays fun w hm =>
        hw w (List.mem_append_left _ hm)
      obtain ⟨hrest, ws', hlen', hws'⟩ := ih hves ⟨e', rest', hsays', hrest', rfl⟩ fun w hm =>
        hw w (List.mem_append_right _ (List.mem_cons_of_mem _ hm))
      refine ⟨fun d hd => ?_, ws ++ separator.toString :: ws', ?_, ?_⟩
      · rcases List.mem_cons.1 hd with rfl | hd
        · exact he
        · exact hrest d hd
      · simp [hlen, hlen']
      · rw [print_cons_cons]
        exact hws.entries hs hws'

theorem print_append (separator : Char) {path more : ClassPath} (hp : path ≠ [])
    (hm : more ≠ []) :
    print separator (path ++ more) =
      print separator path ++ separator.toString ++ print separator more := by
  induction path with
  | nil => exact absurd rfl hp
  | cons e path ih =>
    cases path with
    | nil =>
      cases more with
      | nil => exact absurd rfl hm
      | cons d more =>
        rw [List.singleton_append, print_cons_cons]
        simp [print]
    | cons e' path =>
      have ih := ih (by simp)
      rw [List.cons_append] at ih
      rw [List.cons_append, List.cons_append, print_cons_cons, print_cons_cons, ih]
      simp only [String.append_assoc]

theorem notMem_print {separator : Char} {path : ClassPath} {c : Char} (hs : c ≠ separator)
    (h : ∀ e ∈ path, c ∉ e.print.toList) : c ∉ (print separator path).toList := by
  refine Text.notMem_intercalate (by simpa using hs) fun t ht => ?_
  obtain ⟨e, he, rfl⟩ := List.mem_map.1 ht
  exact h e he

end ClassPath

namespace Configuration

/-! ## Runs only add to class paths -/

theorem path_of_effect {separator : Char} {ctx : Context} {config config' : Configuration}
    (he : Effect separator ctx config config') {role : PathRole} {path : ClassPath}
    (h : config.path role = some path) : ∃ more, config'.path role = some (path ++ more) := by
  have hsame : ∃ more, config.path role = some (path ++ more) := ⟨[], by simpa using h⟩
  cases he with
  | inclusion => exact hsame
  | @classPath role' es entries =>
    rw [path_setPath]
    by_cases hr : role' = role
    · rw [if_pos hr, hr, h]
      exact ⟨entries, rfl⟩
    · rw [if_neg hr]
      exact hsame
  | keep => cases role <;> exact hsame
  | allAttributes => cases role <;> exact hsame
  | attributes => cases role <;> exact hsame
  | text =>
    rw [path_setText]
    exact hsame
  | switch =>
    rw [path_setSwitch]
    exact hsame

theorem path_of_run {ctx : Context} {config config' : Configuration} {c c' : Cursor}
    (hc : c.Lexical) (hrun : run ctx config c = (config', .ok () c')) {role : PathRole}
    {path : ClassPath} (h : config.path role = some path) :
    ∃ more, config'.path role = some (path ++ more) := by
  obtain ⟨config₁, hch, hr⟩ := @changes_of_run ctx config c hc
  rw [hrun] at hr
  rcases hr with rfl | ⟨⟨e, c₁, he⟩, -⟩
  · refine hch.keeps (P := fun c => ∃ more, c.path role = some (path ++ more)) ?_
      ⟨[], by rw [List.append_nil, h]⟩
    rintro a b he ⟨more, ha⟩
    obtain ⟨more', hb⟩ := path_of_effect he ha
    exact ⟨more ++ more', by rw [hb, List.append_assoc]⟩
  · cases he

/-! ## One class path -/

section
variable {separator : Char} (hs : IsSeparator separator) (role : PathRole)
include hs

/-- The line of a class path starts with its keyword, whatever the entries are. -/
theorem ofText_pathLine (path : ClassPath) (rest : String) :
    ∃ m ts, Word.ofText separator (pathLine separator role path ++ "\n" ++ rest) =
      (m, role.keyword) :: ts := by
  have hn : '\n' ∉ (role.keyword ++ " ").toList := by cases role <;> decide
  have hr : (role.keyword ++ " ").toList.getLast? ≠ some '\r' := by cases role <;> decide
  obtain ⟨line, more, hl⟩ := Text.lines_of_start hn hr (ClassPath.print separator path) rest
  obtain ⟨m, ts, ht⟩ := Word.ofText_of_lines hl ((spells_role hs role).ofLine_space line)
  exact ⟨m, _, ht⟩

/-- Entries that are spelled can be told from those after them. -/
theorem words_pathLine_append {path more : ClassPath} {ws : List String}
    (hw : Spells separator (ClassPath.print separator path) ws) (hp : path ≠ []) (hm : more ≠ [])
    (rest : String) :
    ∃ us, (Word.ofText separator (pathLine separator role (path ++ more) ++ "\n" ++ rest)).map
      Prod.snd = role.keyword :: ws ++ separator.toString :: us := by
  have hsep : Text.isBlank separator = false ∧ separator ≠ '#' ∧ separator ≠ '\n' ∧
      separator ≠ '\r' := by
    rcases hs with rfl | rfl <;> decide
  have hstart := (spells_role hs role).space hw
  have hn : '\n' ∉ (role.keyword ++ " " ++ ClassPath.print separator path ++
      separator.toString).toList := by
    have := hstart.oneLine
    rw [String.toList_append]
    simpa [hsep.2.2.1.symm] using this
  have hr : (role.keyword ++ " " ++ ClassPath.print separator path ++
      separator.toString).toList.getLast? ≠ some '\r' := by
    rw [String.toList_append, List.getLast?_append]
    simp [hsep.2.2.2]
  obtain ⟨line, others, hl⟩ := Text.lines_of_start hn hr (ClassPath.print separator more) rest
  have hline : pathLine separator role (path ++ more) = role.keyword ++ " " ++
      ClassPath.print separator path ++ separator.toString ++ ClassPath.print separator more := by
    show role.keyword ++ " " ++ ClassPath.print separator (path ++ more) = _
    rw [ClassPath.print_append separator hp hm]
    simp only [String.append_assoc]
  have hwords := hstart.ofLine_delimiter (s := separator.toString) rfl
    (by simp [Word.isDelimiter]) hsep.1 hsep.2.1 line
  rw [hline, Word.map_snd_ofText, hl, List.flatMap_cons, hwords, List.append_assoc]
  exact ⟨_, rfl⟩

end

/-- Words up to a directive are followed by another directive, or by nothing. -/
theorem mem_of_append_eq {u rest v w : List String} (h : u ++ rest = v ++ w)
    (hu : ∀ x ∈ u, Directive.starts x = false) (hw : w.head?.all Directive.starts = true) :
    ∀ x ∈ u, x ∈ v := by
  rcases List.append_eq_append_iff.1 h with ⟨as, rfl, rfl⟩ | ⟨bs, rfl, rfl⟩
  · intro x hx
    exact List.mem_append_left _ hx
  · cases bs with
    | nil => simp
    | cons b bs =>
      have hb := hu b (List.mem_append_right _ List.mem_cons_self)
      simp [hb] at hw

/-- What a run does that starts with the keyword of a class path. -/
theorem phrases_of_run {separator : Char} {ctx : Context} {config config' : Configuration}
    {role : PathRole} {m : Option String} {ts : List (Option String × String)} {c c' : Cursor}
    (hlex : c.Lexical) (hc : c.Holds separator ((m, role.keyword) :: ts))
    (hrun : run ctx config c = (config', .ok () c')) :
    ∃ es entries rest c₁, ClassPath.ValidPhrases separator es ∧ ClassPath.Say ctx es entries ∧
      (∀ w ∈ ClassPath.phraseWords separator es, Word.IsWord separator w) ∧
      ts.map Prod.snd = ClassPath.phraseWords separator es ++ rest ∧
      rest.head?.all Directive.starts = true ∧ c₁.Lexical ∧
      run ctx (config.setPath role (some ((config.path role).getD [] ++ entries))) c₁ =
        (config', .ok () c') := by
  have hstep := @step_eq_of_lookup? ctx config role.keyword role.keyword _ c
    (Directive.lookup?_ofPath role).2
  have hd := holds_dispatched hc role.keyword role.keyword
  have hlex' := lexical_dispatched hlex role.keyword role.keyword
  have hsep := hd.2.1
  rw [run_of_some hc.1, hstep] at hrun
  simp only [apply] at hrun
  cases hp : ClassPath.parser ctx ((config.path role).getD [])
      (dispatched c role.keyword role.keyword) with
  | error e c₁ =>
    rw [hp] at hrun
    cases hrun
  | ok path c₁ =>
    rw [hp] at hrun
    obtain ⟨es, entries, hv, hsay, hpass, hend, rfl⟩ := ClassPath.parser_iff.1 hp
    obtain ⟨rest, hall, hat⟩ := hpass.ahead hd.ahead
    have hwords := (hpass.lexical hlex').2
    rw [hsep] at hv hall hwords
    exact ⟨es, entries, rest, c₁, hv, hsay, hwords, hall, hat.atEnd.symm.trans hend,
      (hpass.lexical hlex').1, hrun⟩

/-- Up to the next directive, the words after the keyword are words of the line. -/
theorem mem_pathLine_of_words {separator : Char} (hs : IsSeparator separator) {role : PathRole}
    {path : ClassPath} {rest : String} {u after : List String}
    (h : (Word.ofText separator (pathLine separator role path ++ "\n" ++ rest)).map Prod.snd =
      role.keyword :: (u ++ after))
    (hu : ∀ w ∈ u, Directive.starts w = false)
    (hr : startsNext (Word.ofText separator rest) = true) :
    ∀ w ∈ u, w ∈ (Word.ofText separator (pathLine separator role path ++ "\n")).map Prod.snd := by
  obtain ⟨m, ts, ht⟩ := ofText_pathLine hs role path ""
  rw [String.append_empty] at ht
  rw [Word.map_snd_ofText_append, ht, List.map_cons, List.cons_append] at h
  have htail := (List.cons.inj h).2
  intro w hw
  rw [ht]
  exact List.mem_cons_of_mem _ (mem_of_append_eq htail.symm hu hr w hw)

theorem notMem_pathLine {separator : Char} (hs : IsSeparator separator) (role : PathRole)
    {path : ClassPath} (h : ∀ e ∈ path, '<' ∉ e.print.toList) :
    '<' ∉ (pathLine separator role path ++ "\n").toList := by
  have hsep : '<' ≠ separator := by rcases hs with rfl | rfl <;> decide
  have hkey : '<' ∉ role.keyword.toList := by cases role <;> decide
  have hprint := ClassPath.notMem_print hsep h
  have hline : pathLine separator role path =
      role.keyword ++ " " ++ ClassPath.print separator path := rfl
  rw [hline]
  simp [hkey, hprint]

/-- A class path without references is writable if a run over its line, and whatever follows, gives
it back. -/
theorem writable_of_run {separator : Char} (hs : IsSeparator separator) {ctx : Context}
    {config config' : Configuration} {role : PathRole} {path : ClassPath} {rest : String}
    {c c' : Cursor} (hlit : ∀ e ∈ path, '<' ∉ e.print.toList) (hlex : c.Lexical)
    (hc : c.Holds separator (Word.ofText separator (pathLine separator role path ++ "\n" ++ rest)))
    (hr : startsNext (Word.ofText separator rest) = true) (hnone : config.path role = none)
    (hrun : run ctx config c = (config', .ok () c')) (hpath : config'.path role = some path) :
    path ≠ [] ∧ ∀ e ∈ path, e.Writable separator := by
  obtain ⟨m, ts, ht⟩ := ofText_pathLine hs role path rest
  have hwords := congrArg (List.map Prod.snd) ht
  rw [ht] at hc
  obtain ⟨es, entries, after, c₁, hv, hsay, hw, hts, hend, hlex₁, hrun₁⟩ :=
    phrases_of_run hlex hc hrun
  rw [List.map_cons, hts] at hwords
  have hbare : ∀ w ∈ ClassPath.phraseWords separator es, Word.IsBare separator w := by
    intro w hmem
    have hin := mem_pathLine_of_words hs hwords (ClassPath.starts_of_mem_phraseWords hv) hr w hmem
    exact ⟨hw w hmem, fun href => notMem_pathLine hs role hlit (Word.mem_of_mem_ofText hin href)⟩
  obtain ⟨hwritable, ws, hlen, hspell⟩ := ClassPath.writable_of_say hs hv hsay hbare
  have hne : entries ≠ [] := entries_ne_nil hv hsay
  obtain ⟨more, hmore⟩ := path_of_run hlex₁ hrun₁ (path_setPath _ role role _ |>.trans (if_pos rfl))
  rw [hpath, hnone] at hmore
  obtain rfl : path = entries ++ more := Option.some.inj hmore
  -- a separator after the entries would have been read as one
  have hnil : more = [] := by
    by_cases hm : more = []
    · exact hm
    · obtain ⟨us, hus⟩ := words_pathLine_append hs role hspell hne hm rest
      have htail := (List.cons.inj (hwords.symm.trans hus)).2
      have hafter := (List.append_inj htail hlen.symm).2
      have hsep : Directive.starts separator.toString = false := by
        rcases hs with rfl | rfl <;> decide
      rw [hafter, List.head?_cons, Option.all_some, hsep] at hend
      cases hend
  rw [hnil, List.append_nil]
  exact ⟨hne, hwritable⟩

/-! ## Whole configurations -/

/-- No references are left in the class paths. -/
def PathsLiteral (c : Configuration) : Prop :=
  ∀ role path, c.path role = some path → ∀ e ∈ path, '<' ∉ e.print.toList

section
variable {separator : Char} (hs : IsSeparator separator) {ctx : Context} {c : Configuration}
include hs

/-- The text of a configuration from the given class paths on. -/
def textFrom (separator : Char) (c : Configuration) (roles : List PathRole) : String :=
  String.join ((c.pathLines separator roles ++ c.optionLines).map (· ++ "\n"))

omit hs in
theorem textFrom_cons (role : PathRole) (roles : List PathRole) :
    c.textFrom separator (role :: roles) =
      match c.path role with
      | none => c.textFrom separator roles
      | some path => pathLine separator role path ++ "\n" ++ c.textFrom separator roles := by
  unfold textFrom pathLines
  cases hp : c.path role with
  | none => rw [List.filterMap_cons_none (by rw [hp]; rfl)]
  | some path =>
    rw [List.filterMap_cons_some (b := pathLine separator role path) (by rw [hp]; rfl)]
    simp [String.join_cons]

theorem startsNext_textFrom (ho : c.OptionsWritable separator) (roles : List PathRole) :
    startsNext (Word.ofText separator (c.textFrom separator roles)) = true := by
  induction roles with
  | nil =>
    obtain ⟨ss, hss, ht⟩ := (@written_optionLines separator hs bareContext c ho).ofText ""
    rw [String.append_empty] at ht
    show startsNext (Word.ofText separator (String.join (c.optionLines.map (· ++ "\n")))) = true
    rw [ht]
    exact hss.startsNext rfl
  | cons role roles ih =>
    rw [textFrom_cons]
    cases c.path role with
    | none => exact ih
    | some path =>
      obtain ⟨m, ts, ht⟩ := ofText_pathLine hs role path (c.textFrom separator roles)
      show startsNext (Word.ofText separator
        (pathLine separator role path ++ "\n" ++ c.textFrom separator roles)) = true
      rw [ht]
      exact (Directive.lookup?_ofPath role).1

/-- Each class path is read by itself, after those before it have been read back. -/
theorem pathsWritable_of_run (ho : c.OptionsWritable separator) (hl : c.PathsLiteral)
    {roles : List PathRole} (hroles : roles.Nodup) {config : Configuration} {cursor c' : Cursor}
    (hlex : cursor.Lexical)
    (hc : cursor.Holds separator (Word.ofText separator (c.textFrom separator roles)))
    (hnone : ∀ role ∈ roles, config.path role = none)
    (hrun : run ctx config cursor = (c, .ok () c')) :
    ∀ role ∈ roles, ∀ path, c.path role = some path →
      path ≠ [] ∧ ∀ e ∈ path, e.Writable separator := by
  induction roles generalizing config cursor with
  | nil => nofun
  | cons role roles ih =>
    obtain ⟨hrole, hroles⟩ := List.nodup_cons.1 hroles
    have hfirst := hnone role List.mem_cons_self
    have hrest : ∀ r ∈ roles, config.path r = none := fun r hr =>
      hnone r (List.mem_cons_of_mem _ hr)
    rw [textFrom_cons] at hc
    cases hp : c.path role with
    | none =>
      rw [hp] at hc
      intro r hr path hpath
      rcases List.mem_cons.1 hr with rfl | hr
      · rw [hp] at hpath
        cases hpath
      · exact ih hroles hlex hc hrest hrun r hr path hpath
    | some path =>
      rw [hp] at hc
      have hnext := startsNext_textFrom hs ho roles
      obtain ⟨hne, hw⟩ := writable_of_run hs (hl role path hp) hlex hc hnext hfirst hrun hp
      -- now the line is known to be read as it was written
      have hline : Written separator ctx [pathLine separator role path] config
          (config.setPath role (some path)) := written_path hs hne hw hfirst
      have hjoin : String.join ([pathLine separator role path].map (· ++ "\n")) =
          pathLine separator role path ++ "\n" := by simp
      obtain ⟨cursor', hc', hlex', hrun'⟩ := hline.run (by rw [hjoin]; exact hc) hnext
      rw [hrun'] at hrun
      have hrest' : ∀ r ∈ roles, (config.setPath role (some path)).path r = none := by
        intro r hr
        have hdiff : role ≠ r := fun he => hrole (he ▸ hr)
        rw [path_setPath, if_neg hdiff]
        exact hrest r hr
      intro r hr path' hpath
      rcases List.mem_cons.1 hr with rfl | hr
      · rw [hp] at hpath
        cases hpath
        exact ⟨hne, hw⟩
      · exact ih hroles (hlex' hlex) hc' hrest' hrun r hr path' hpath

end

/-- **The class paths of a configuration that is read back from its text are writable**, if no
references are left in them. -/
theorem pathsWritable_of_ofSource {ctx : Context} {settings : Settings} {c : Configuration}
    {name : String} (hs : IsSeparator settings.pathSeparator)
    (ho : c.OptionsWritable settings.pathSeparator) (hl : c.PathsLiteral)
    (h : ofSource ctx settings (.ofText name (c.print settings.pathSeparator)) = .ok c) :
    c.PathsWritable settings.pathSeparator := by
  obtain ⟨cursor, hcursor, hholds⟩ := @Cursor.holds_of_lines
    (.ofText name (c.print settings.pathSeparator)) settings _ rfl rfl
  obtain ⟨c', hrun⟩ := (ofSource_of_run hcursor).1 h
  have htext : c.print settings.pathSeparator = c.textFrom settings.pathSeparator PathRole.all := by
    rw [print, textFrom, lines_eq_append]
  rw [htext] at hholds
  have hw := pathsWritable_of_run hs ho hl (by decide : PathRole.all.Nodup)
    (lexical_of_ofReader hcursor).1 hholds (fun role _ => by cases role <;> rfl) hrun
  intro role
  exact hw role (by cases role <;> decide)

end Configuration

end KeepRules
