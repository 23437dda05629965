import KeepRules.Proofs.Configuration.Continuation
import KeepRules.Proofs.Configuration.Texts

/-! # Layout

What is read depends on the words of a source alone. How they are spread over lines or arguments,
what blanks stand between them and where comments are written makes no difference, but for the
comments that rules take along and for the places of errors.

* `sameWords`: the foundation for two single sources with the same words ahead.
* `run_of_sameWords`: runs from cursors with the same words ahead.
* `Source.WithoutComments`: sources for which not even the comments differ.
* `readInto_layout`: sources with the same words; arguments that are split or joined. -/

set_option autoImplicit false

namespace KeepRules

open KeepRules.Parser

open Cursor (Poised)

/-! ## Single sources -/

/-- Two single sources with the same words ahead. -/
def sameWords (settings : Settings) : Foundation settings (fun _ => none) False where
  Rel b b' := b.length = 1 ∧ b'.length = 1 ∧ ∃ ws : List String,
    Frame.Lists settings.pathSeparator b ws ∧ Frame.Lists settings.pathSeparator b' ws
  Beyond c c' := c.word = none ∧ c'.word = none
  ne_nil := by
    rintro b b' ⟨-, -, ws, hb, hb'⟩
    exact ⟨hb.ne_nil, hb'.ne_nil⟩
  next := by
    rintro r r' hr hr' ⟨h₁, h₁', ws, hb, hb'⟩
    obtain ⟨s, hn, hp⟩ := Reader.next_of_lists hr hb
    obtain ⟨s', hn', hp'⟩ := Reader.next_of_lists hr' hb'
    refine ⟨_, _, s, s', hn, hn', ?_⟩
    cases ws with
    | nil => exact .inr ⟨rfl, rfl⟩
    | cons w ws =>
      refine .inl
        ⟨⟨w, rfl, rfl⟩, Reader.length_of_next hn h₁, Reader.length_of_next hn' h₁', ws, ?_⟩
      constructor
      · exact (Cursor.ahead_iff_lists hp.2).1 hp.1.rest
      · exact (Cursor.ahead_iff_lists hp'.2).1 hp'.1.rest
  ended := Cursor.atEnd_of_none
  comments _ := rfl
  takes := by
    rintro f f' b b' ⟨h₁, h₁', ws, hb, hb'⟩
    exact ⟨h₁, h₁', ws, hb.takes, hb'.takes⟩
  height := by
    right
    rintro b b' ⟨h₁, h₁', -⟩
    exact h₁'.trans h₁.symm

section
variable {settings : Settings}

theorem Cursor.paired_sameWords {c c' : Cursor} {ws : List String} (hc : c.Poised settings ws)
    (hc' : c'.Poised settings ws) (hd : c.reader.depth = 0) (hd' : c'.reader.depth = 0) :
    (sameWords settings).pairing.Paired c c' := by
  cases ws with
  | nil => exact .inr ⟨hc.1.word, hc'.1.word⟩
  | cons w ws =>
    refine .inl ⟨⟨w, hc.1.word, hc'.1.word⟩, hc.2, hc'.2, [], _, _, rfl, rfl, ?_⟩
    refine ⟨congrArg Nat.succ hd, congrArg Nat.succ hd', ws, ?_, ?_⟩
    · exact (Cursor.ahead_iff_lists hc.2).1 hc.1.rest
    · exact (Cursor.ahead_iff_lists hc'.2).1 hc'.1.rest

end

namespace Configuration

/-- Cursors in single sources with the same words ahead. -/
theorem run_of_sameWords {settings : Settings} {c c' : Cursor} {ws : List String} (ctx : Context)
    (config : Configuration) (hc : c.Poised settings ws) (hc' : c'.Poised settings ws)
    (hd : c.reader.depth = 0) (hd' : c'.reader.depth = 0) :
    Alike (fun _ => none) (fun _ _ => True) (run ctx config c) (run ctx config c') := by
  have hsame : config.uncommented = config.uncommented := rfl
  rcases run_of_paired _ ctx (Cursor.paired_sameWords hc hc' hd hd') hsame with
    (h | ⟨hl, -⟩) | ⟨config₁, config₁', c₁, c₁', ⟨hw, hw'⟩, h₁, hrun, hrun'⟩
  · exact ⟨h.config, h.result.imp fun _ _ _ => False.elim⟩
  · exact hl.elim
  · rw [hrun, hrun', run_of_none hw, run_of_none hw']
    exact ⟨h₁, .ok trivial⟩

end Configuration

/-! ## Sources -/

namespace Source

/-- No line has a comment. -/
def WithoutComments (source : Source) : Prop :=
  ∀ line, some line ∈ source.unread → '#' ∉ line.toList

theorem exists_lines {source : Source} (h : none ∉ source.unread) :
    ∃ lines : List String, source.unread = lines.map some := by
  generalize source.unread = unread at h
  induction unread with
  | nil => exact ⟨[], rfl⟩
  | cons line unread ih =>
    obtain ⟨lines, rfl⟩ := ih fun hm => h (List.mem_cons_of_mem _ hm)
    cases line with
    | none => exact absurd List.mem_cons_self h
    | some line => exact ⟨line :: lines, rfl⟩

end Source

namespace Reader

section
variable {settings : Settings} {source : Source} {ws : List String}

theorem Yields.lists (h : (ofSource source settings).Yields ws) :
    Frame.Lists settings.pathSeparator [{ source := source }] ws := by
  obtain ⟨ha, hf⟩ := yields_iff.1 h
  exact ⟨List.cons_ne_nil _ _, ha, hf⟩

/-- A source that is read to its end has nothing but lines, and gives their words. -/
theorem Yields.lines (h : (ofSource source settings).Yields ws) :
    source.fault = none ∧ ∃ lines : List String, source.unread = lines.map some ∧
      ws = lines.flatMap fun line => (Word.ofLine settings.pathSeparator line).1 := by
  obtain ⟨ha, hf⟩ := yields_iff.1 h
  have hfault : source.fault = none := hf _ List.mem_cons_self
  have hnone : none ∉ source.unread := by
    intro hm
    have herror : .error .invalidUtf8 ∈ (ofSource source settings).ahead := by
      refine List.mem_flatMap.2 ⟨_, List.mem_cons_self, List.mem_append_right _ ?_⟩
      exact List.mem_flatMap.2 ⟨none, hm, List.mem_singleton_self _⟩
    rw [ha] at herror
    simp at herror
  obtain ⟨lines, hu⟩ := Source.exists_lines hnone
  refine ⟨hfault, lines, hu, ?_⟩
  have hsame := (yields_iff.1 (@yields_of_lines settings _ _ hfault hu)).1
  rw [ha] at hsame
  exact (List.map_inj_right fun _ _ => Except.ok.inj).1 hsame

theorem Yields.stands (h : (ofSource source settings).Yields ws) (hc : source.WithoutComments) :
    ∃ c, Cursor.ofReader (ofSource source settings) = .ok c ∧
      c.Stands settings (ws.map (Prod.mk none)) := by
  obtain ⟨hfault, lines, hu, rfl⟩ := h.lines
  obtain ⟨c, hcursor, hs⟩ := @Cursor.stands_of_lines settings _ _ hfault hu
  have hcomments : ∀ line ∈ lines, '#' ∉ line.toList := by
    intro line hl
    refine hc line ?_
    rw [hu]
    exact List.mem_map_of_mem hl
  have hmarked := Word.marked_of_notMem settings.pathSeparator hcomments []
  rw [List.append_nil, Word.marked, List.append_nil] at hmarked
  exact ⟨c, hcursor, hmarked ▸ hs⟩

end

end Reader

namespace Configuration

section
variable {ctx : Context} {settings : Settings} {config : Configuration} {source source' : Source}
  {ws : List String}

theorem readInto_of_yields (h : (Reader.ofSource source settings).Yields ws)
    (h' : (Reader.ofSource source' settings).Yields ws) :
    (readInto ctx settings config source').1.uncommented =
        (readInto ctx settings config source).1.uncommented ∧
      (readInto ctx settings config source').2.mapError ParseError.cause =
        (readInto ctx settings config source).2.mapError ParseError.cause := by
  obtain ⟨c, hc, hp, hd⟩ := Cursor.poised_of_source h.lists
  obtain ⟨c', hc', hp', hd'⟩ := Cursor.poised_of_source h'.lists
  rw [readInto_of_cursor hc, readInto_of_cursor hc']
  exact (run_of_sameWords ctx config hp hp' hd hd').ending

theorem readInto_of_withoutComments (h : (Reader.ofSource source settings).Yields ws)
    (h' : (Reader.ofSource source' settings).Yields ws) (hc : source.WithoutComments)
    (hc' : source'.WithoutComments) :
    unlocated (readInto ctx settings config source') =
      unlocated (readInto ctx settings config source) := by
  obtain ⟨c, hcursor, hs⟩ := h.stands hc
  obtain ⟨c', hcursor', hs'⟩ := h'.stands hc'
  rw [readInto_of_cursor hcursor, readInto_of_cursor hcursor']
  exact run_of_resumed hs hs'

end

end Configuration

/-! ## Arguments -/

namespace Source

theorem withoutComments_ofArguments {args : List String} (h : ∀ arg ∈ args, '#' ∉ arg.toList) :
    (ofArguments args).WithoutComments := by
  intro line hline
  obtain ⟨arg, harg, hsome⟩ := List.mem_map.1 hline
  exact Option.some.inj hsome ▸ h arg harg

theorem yields_ofArguments {settings : Settings} {args : List String}
    (h : ∀ arg ∈ args, '#' ∉ arg.toList) :
    (Reader.ofSource (ofArguments args) settings).Yields
      (args.flatMap fun arg => Word.words settings.pathSeparator arg.toList) := by
  have hwords : args.flatMap (fun arg => (Word.ofLine settings.pathSeparator arg).1) =
      args.flatMap fun arg => Word.words settings.pathSeparator arg.toList := by
    rw [List.flatMap_def, List.flatMap_def]
    refine congrArg List.flatten (List.map_congr_left fun arg harg => ?_)
    rw [Word.ofLine_of_notMem (h arg harg)]
  rw [← hwords]
  exact Reader.yields_of_lines rfl rfl

end Source

namespace Configuration

/-- Arguments without comments that come to the same words. -/
theorem readInto_of_arguments {ctx : Context} {settings : Settings} {config : Configuration}
    {args args' : List String} (h : ∀ arg ∈ args, '#' ∉ arg.toList)
    (h' : ∀ arg ∈ args', '#' ∉ arg.toList)
    (hwords : args'.flatMap (fun arg => Word.words settings.pathSeparator arg.toList) =
      args.flatMap fun arg => Word.words settings.pathSeparator arg.toList) :
    unlocated (readInto ctx settings config (.ofArguments args')) =
      unlocated (readInto ctx settings config (.ofArguments args)) := by
  refine readInto_of_withoutComments (Source.yields_ofArguments h) ?_
    (Source.withoutComments_ofArguments h) (Source.withoutComments_ofArguments h')
  rw [← hwords]
  exact Source.yields_ofArguments h'

/-- **Only the words matter.** Two sources with the same words are read in the same way, with the
same configuration up to the comments of its rules, and with the same comments if there are none in
either source. Hence arguments can be split at blanks and joined with spaces. -/
theorem readInto_layout (ctx : Context) (settings : Settings) (config : Configuration) :
    (∀ (source source' : Source) (ws : List String),
      (Reader.ofSource source settings).Yields ws → (Reader.ofSource source' settings).Yields ws →
      (readInto ctx settings config source').1.uncommented =
          (readInto ctx settings config source).1.uncommented ∧
        (readInto ctx settings config source').2.mapError ParseError.cause =
          (readInto ctx settings config source).2.mapError ParseError.cause ∧
        (source.WithoutComments → source'.WithoutComments →
          unlocated (readInto ctx settings config source') =
            unlocated (readInto ctx settings config source))) ∧
    (∀ (before after : List String) (first gap second : String),
      gap ≠ "" → (∀ c ∈ gap.toList, Text.isBlank c = true) →
      (∀ arg ∈ before ++ (first ++ gap ++ second) :: after, '#' ∉ arg.toList) →
      unlocated (readInto ctx settings config (.ofArguments (before ++ first :: second :: after))) =
        unlocated (readInto ctx settings config
          (.ofArguments (before ++ (first ++ gap ++ second) :: after)))) ∧
    ∀ before args after : List String, (∀ arg ∈ before ++ args ++ after, '#' ∉ arg.toList) →
      unlocated (readInto ctx settings config
          (.ofArguments (before ++ " ".intercalate args :: after))) =
        unlocated (readInto ctx settings config (.ofArguments (before ++ args ++ after))) := by
  refine ⟨fun source source' ws h h' => ?_, ?_, ?_⟩
  · obtain ⟨hconfig, hresult⟩ := readInto_of_yields h h'
    exact ⟨hconfig, hresult, readInto_of_withoutComments h h'⟩
  · intro before after first gap second hne hblank hall
    have hgap : gap.toList ≠ [] := mt String.toList_eq_nil_iff.1 hne
    refine readInto_of_arguments hall ?_ ?_
    · simp only [List.forall_mem_append, List.forall_mem_cons] at hall ⊢
      simp only [String.toList_append, List.mem_append, not_or] at hall
      obtain ⟨hbefore, ⟨⟨hfirst, -⟩, hsecond⟩, hafter⟩ := hall
      exact ⟨hbefore, hfirst, hsecond, hafter⟩
    · simp only [List.flatMap_append, List.flatMap_cons, String.toList_append, List.append_assoc,
        Word.words_append_blanks hgap hblank]
  · intro before args after hall
    refine readInto_of_arguments hall ?_ ?_
    · simp only [List.forall_mem_append, List.forall_mem_cons] at hall ⊢
      obtain ⟨⟨hbefore, hargs⟩, hafter⟩ := hall
      exact ⟨hbefore, Text.notMem_intercalate (by decide) hargs, hafter⟩
    · simp only [List.flatMap_append, List.flatMap_cons, List.append_assoc, Word.words_intercalate]

/-- A directive with a comment in a text, in one argument and in two. -/
theorem readInto_layout_dump :
    ((Reader.ofSource (.ofText "f" "-dump # here\n a") {}).Yields ["-dump", "a"] ∧
      (Reader.ofSource (.ofArguments ["-dump a"]) {}).Yields ["-dump", "a"] ∧
      (readInto bareContext {} {} (.ofArguments ["-dump a"])).1.uncommented =
        (readInto bareContext {} {} (.ofText "f" "-dump # here\n a")).1.uncommented) ∧
    unlocated (readInto bareContext {} {} (.ofArguments ["-dump", "a"])) =
      unlocated (readInto bareContext {} {} (.ofArguments ["-dump a"])) ∧
    unlocated (readInto bareContext {} {} (.ofArguments ["-dump a"])) =
      unlocated (readInto bareContext {} {} (.ofArguments ["-dump", "a"])) := by
  obtain ⟨hwords, hsplit, hjoin⟩ := readInto_layout bareContext {} {}
  have htext : (Reader.ofSource (.ofText "f" "-dump # here\n a") {}).Yields ["-dump", "a"] :=
    @Reader.yields_of_lines {} _ ["-dump # here", " a"] rfl (by decide)
  have hargs : (Reader.ofSource (.ofArguments ["-dump a"]) {}).Yields ["-dump", "a"] :=
    @Reader.yields_of_lines {} _ ["-dump a"] rfl rfl
  exact ⟨⟨htext, hargs, (hwords _ _ _ htext hargs).1⟩,
    hsplit [] [] "-dump" " " "a" (by decide) Word.isBlank_space (by decide),
    hjoin [] ["-dump", "a"] [] (by decide)⟩

end Configuration

end KeepRules
