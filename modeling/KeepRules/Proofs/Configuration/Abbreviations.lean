import KeepRules.Proofs.Configuration.Continuation
import KeepRules.Proofs.Rewording

/-! # Abbreviated keywords

A keyword may be abbreviated. Written out in full, it asks for the same directive: where a directive
starts, only what its word stands for counts, and inside a directive no word that stands for one is
ever taken.

* `Directive.expand`: the full keyword that a word stands for, and all other words as they are.
* `Configuration.apply_of_reader`: a directive reads on before it looks at anything.
* `expanded`: the foundation for a text and the same text with its keywords written out.
* `Configuration.readInto_expanded`: the two texts are read alike. -/

set_option autoImplicit false

namespace KeepRules

/-! ## Keywords -/

namespace Directive

/-- The full keyword that the word stands for, if it stands for any. -/
def expand (word : String) : String := ((lookup? word).map Prod.fst).getD word

theorem expand_of_some {word : String} {e : String × Directive} (h : lookup? word = some e) :
    expand word = e.1 := by
  rw [expand, h]
  rfl

theorem expand_of_none {word : String} (h : lookup? word = none) : expand word = word := by
  rw [expand, h]
  rfl

/-- A full keyword stands for itself. -/
theorem lookup?_expand (word : String) : lookup? (expand word) = lookup? word := by
  cases h : lookup? word with
  | none => rw [expand_of_none h, h]
  | some e =>
    rw [expand_of_some h]
    exact (lookup?_of_mem_table e (Configuration.mem_table_of_lookup? h)).2

theorem expand_expand (word : String) : expand (expand word) = expand word := by
  conv_lhs => rw [expand, lookup?_expand]
  cases h : lookup? word with
  | none => rfl
  | some e =>
    rw [expand_of_some h]
    rfl

/-- A word that stands for a keyword starts a directive. -/
theorem starts_of_lookup? {word : String} {e : String × Directive} (h : lookup? word = some e) :
    starts word = true := by
  have hmem := Configuration.mem_table_of_lookup? h
  have hall : ∀ e ∈ table, e.1.toList.head? = some '-' ∨ e.1.toList = ['@'] := by decide
  unfold lookup? at h
  split at h
  · cases h
  · next hne =>
    obtain ⟨t, ht⟩ : word.toList <+: e.1.toList := by simpa using List.find?_some h
    obtain ⟨c, rest, hw⟩ := List.exists_cons_of_ne_nil (show word.toList ≠ [] by simpa using hne)
    have he : e.1.toList = c :: (rest ++ t) := by rw [← ht, hw, List.cons_append]
    rcases hall e hmem with hhead | hhead
    · rw [he] at hhead
      simp [starts, hw, Option.some.inj hhead]
    · rw [he] at hhead
      obtain ⟨rfl, hrest⟩ := List.cons.inj hhead
      obtain rfl : rest = [] := (List.append_eq_nil_iff.1 hrest).1
      have hword : word = "@" := by rw [← String.toList_inj, hw]; rfl
      rw [hword]
      rfl

theorem starts_of_expand_ne {word : String} (h : expand word ≠ word) :
    starts word = true ∧ starts (expand word) = true := by
  cases hl : lookup? word with
  | none => exact absurd (expand_of_none hl) h
  | some e => exact ⟨starts_of_lookup? hl, starts_of_lookup? (lookup?_expand word ▸ hl)⟩

/-- A full keyword can stand in the place of its abbreviation, unless the separator cuts it up. -/
theorem replaces_expand {separator : Char} (hs : separator = ':' ∨ separator = ';') {word : String}
    (hw : Word.IsWord separator word) : Word.Replaces separator word (expand word) := by
  have hall : ∀ e ∈ table, Word.IsWord ':' e.1 ∧ Word.IsWord ';' e.1 := by decide +kernel
  constructor
  · cases hl : lookup? word with
    | none => rwa [expand_of_none hl]
    | some e =>
      obtain ⟨hcolon, hsemicolon⟩ := hall e (Configuration.mem_table_of_lookup? hl)
      rw [expand_of_some hl]
      rcases hs with rfl | rfl
      · exact hcolon
      · exact hsemicolon
  · rintro d hd rfl
    by_contra hne
    have hstarts := (starts_of_expand_ne hne).1
    rw [starts, String.toList_singleton, Bool.or_eq_true, beq_iff_eq, beq_iff_eq] at hstarts
    rcases hstarts with hdash | hat
    · obtain rfl : d = '-' := Option.some.inj hdash
      rcases hs with rfl | rfl <;> exact absurd hd (by decide)
    · -- the short form of the include is a delimiter, but no abbreviation
      rw [hat] at hne
      exact hne rfl

end Directive

/-! ## Directives read on first -/

open KeepRules.Parser

namespace Configuration

theorem alike_of_fresh {α : Type} {p : Parser α} (h : Fresh p) {c c' : Cursor}
    (hc : c'.reader = c.reader) (done : α → Configuration) (failed : Configuration) :
    Alike id Eq (settle (p c) done failed) (settle (p c') done failed) :=
  alike_settle (h c c' hc) (fun _ => rfl) rfl

/-- A directive looks at what comes after its keyword only. -/
theorem apply_of_reader (ctx : Context) (comments : Option String) (config : Configuration)
    (d : Directive) {c c' : Cursor} (hc : c'.reader = c.reader) :
    Alike id Eq (apply ctx comments config d c) (apply ctx comments config d c') := by
  cases d with
  | includeFile => exact alike_of_fresh (Fresh.readWord.bind _) hc _ _
  | classPath role =>
    have hloop : Fresh ((ClassPath.entryLoop ctx c.reader.separator).run
        ((config.path role).getD [])) := Fresh.loop (fun _ => Fresh.readWord.bind _) _
    unfold apply ClassPath.parser
    rw [hc]
    exact alike_of_fresh hloop hc _ _
  | keep intent =>
    exact alike_of_fresh (Fresh.bind (.loop (fun _ => Fresh.readWord.bind _) _) _) hc _ _
  | keepAttributes => exact alike_of_fresh (Fresh.advance.bind _) hc _ _
  | text o => exact alike_of_fresh (Fresh.advance.bind _) hc _ _
  | switch s => exact alike_of_fresh Fresh.advance hc _ _

end Configuration

/-! ## Two texts -/

/-- The words with all keywords written out. -/
def expandAll (ts : List (Option String × String)) : List (Option String × String) :=
  ts.map fun t => (t.1, Directive.expand t.2)

section
variable (settings : Settings)

/-- Both cursors are at the end of their sources, or at words that start the same directive. -/
def Cursor.StandAlike (c c' : Cursor) : Prop :=
  ∃ ts, c.Stands settings ts ∧ c'.Stands settings (expandAll ts) ∧
    Configuration.startsNext ts = true ∧ Configuration.startsNext (expandAll ts) = true

/-- Two sources, of which the second has the keywords of the first written out. -/
def expanded : Foundation settings id False where
  Rel b b' := ∃ f f' ts, b = [f] ∧ b' = [f'] ∧ f.Holds settings.pathSeparator ts ∧
    f'.Holds settings.pathSeparator (expandAll ts) ∧ f'.comments = f.comments
  Beyond := Cursor.StandAlike settings
  ne_nil := by
    rintro _ _ ⟨f, f', ts, rfl, rfl, -⟩
    exact ⟨List.cons_ne_nil _ _, List.cons_ne_nil _ _⟩
  next := by
    rintro r r' hr hr' ⟨f, f', ts, hs, hs', hf, hf', hc⟩
    rw [← hr.1] at hf
    rw [← hr'.1] at hf'
    cases ts with
    | nil =>
      obtain ⟨r₁, hn⟩ := Reader.next_of_holds_nil hs hf
      obtain ⟨r₁', hn'⟩ := Reader.next_of_holds_nil hs' hf'
      exact ⟨_, _, r₁, r₁', hn, hn',
        .inr ⟨[], ⟨rfl, hr.next hn⟩, ⟨rfl, hr'.next hn'⟩, rfl, rfl⟩⟩
    | cons t ts =>
      obtain ⟨m, w⟩ := t
      obtain ⟨g, r₁, hn, hs₁, hg, hgc⟩ := Reader.next_of_holds hs hf
      obtain ⟨g', r₁', hn', hs₁', hg', hgc'⟩ := Reader.next_of_holds hs' hf'
      rw [hr.1] at hg
      rw [hr'.1] at hg'
      rw [hc, ← hgc] at hgc'
      refine ⟨_, _, r₁, r₁', hn, hn', ?_⟩
      by_cases hw : Directive.expand w = w
      · exact .inl ⟨⟨w, rfl, congrArg some hw⟩, g, g', ts, hs₁, hs₁', hg, hg', hgc'⟩
      · obtain ⟨hstarts, hstarts'⟩ := Directive.starts_of_expand_ne hw
        obtain ⟨rfl, hb⟩ := Reader.stack_eq_singleton hs₁
        obtain ⟨rfl, hb'⟩ := Reader.stack_eq_singleton hs₁'
        have hfollows := hr.next hn
        have hfollows' := hr'.next hn'
        exact .inr ⟨(r₁.top.comments, w) :: ts,
          ⟨⟨rfl, hfollows.1, hb, hg, rfl⟩, hfollows⟩,
          ⟨⟨rfl, hfollows'.1, hb', hg', hgc'⟩, hfollows'⟩, hstarts, hstarts'⟩
  ended := by
    rintro c c' ⟨ts, hc, hc', ht, ht'⟩
    exact ⟨hc.1.atEnd.trans ht, hc'.1.atEnd.trans ht'⟩
  comments := by
    rintro f f' b b' ⟨_, _, ts, hb, hb', -, -, hc⟩
    obtain ⟨rfl, -⟩ := List.cons.inj hb
    obtain ⟨rfl, -⟩ := List.cons.inj hb'
    exact hc
  takes := by
    rintro f f' b b' ⟨_, _, ts, hb, hb', hf, hf', -⟩
    obtain ⟨rfl, rfl⟩ := List.cons.inj hb
    obtain ⟨rfl, rfl⟩ := List.cons.inj hb'
    exact ⟨_, _, ts, rfl, rfl, hf, hf', rfl⟩
  height := by
    right
    rintro _ _ ⟨f, f', ts, rfl, rfl, -⟩
    rfl

end

namespace Cursor

variable {settings : Settings}

theorem over_expanded {c c' : Cursor} {m : Option String} {w w' : String}
    {ts : List (Option String × String)} (hc : c.Stands settings ((m, w) :: ts))
    (hc' : c'.Stands settings ((m, w') :: expandAll ts)) :
    (expanded settings).Over c.reader c'.reader := by
  obtain ⟨⟨-, -, hb, hf, hm⟩, hr⟩ := hc
  obtain ⟨⟨-, -, hb', hf', hm'⟩, hr'⟩ := hc'
  refine ⟨hr, hr', [], _, _, rfl, rfl, c.reader.top, c'.reader.top, ts, ?_⟩
  exact ⟨congrArg (List.cons _) hb, congrArg (List.cons _) hb', hf, hf', hm'.trans hm.symm⟩

/-- A source and its counterpart, wherever they stand. -/
theorem paired_expanded {c c' : Cursor} {ts : List (Option String × String)}
    (hc : c.Stands settings ts) (hc' : c'.Stands settings (expandAll ts)) :
    (expanded settings).pairing.Paired c c' := by
  cases ts with
  | nil => exact .inr ⟨[], hc, hc', rfl, rfl⟩
  | cons t ts =>
    obtain ⟨m, w⟩ := t
    by_cases hw : Directive.expand w = w
    · exact .inl ⟨⟨w, hc.1.word, hc'.1.word.trans (congrArg some hw)⟩, over_expanded hc hc'⟩
    · obtain ⟨hstarts, hstarts'⟩ := Directive.starts_of_expand_ne hw
      exact .inr ⟨_, hc, hc', hstarts, hstarts'⟩

end Cursor

/-! ## Runs -/

namespace Configuration

section
variable {ctx : Context} {settings : Settings}

theorem Alike.trans {Q : Cursor → Cursor → Prop} {o o₁ o' : Outcome} (h : Alike id Q o o₁)
    (h' : Alike id Eq o₁ o') : Alike id Q o o' := by
  obtain ⟨config, r⟩ := o
  obtain ⟨config₁, r₁⟩ := o₁
  obtain ⟨config', r'⟩ := o'
  obtain ⟨hconfig, hr⟩ := h
  obtain ⟨hconfig', hr'⟩ := h'
  refine ⟨hconfig'.trans hconfig, ?_⟩
  cases hr with
  | ok hq =>
    obtain ⟨_, rfl, rfl⟩ := hr'.of_ok
    exact .ok hq
  | error he =>
    obtain ⟨_, _, rfl, he'⟩ := hr'.of_error
    exact .error (he.trans he')

/-- One directive, found by a word and by what the word stands for. -/
theorem step_of_expanded {config : Configuration} {word : String} {c c' : Cursor}
    (h : (expanded settings).pairing.Paired c c') (hw : c.word = some word) :
    ∃ word', c'.word = some word' ∧ Alike id (expanded settings).pairing.Paired
      (step ctx config word c) (step ctx config word' c') := by
  rcases h with h | ⟨ts, hc, hc', -, -⟩
  · refine ⟨word, ((expanded settings).pairing.word h).trans hw, ?_⟩
    rcases step_of_within (expanded settings).pairing ctx word h rfl with hstep | ⟨hf, -⟩
    · exact hstep
    · exact hf.elim
  · have hword := hc.1.word
    rw [hw] at hword
    cases ts with
    | nil => cases hword
    | cons t ts =>
      obtain ⟨m, w⟩ := t
      obtain rfl : word = w := Option.some.inj hword
      refine ⟨Directive.expand word, hc'.1.word, ?_⟩
      have hl' := Directive.lookup?_expand word
      cases hl : Directive.lookup? word with
      | none =>
        rw [hl] at hl'
        simp only [step, hl, hl']
        exact ⟨rfl, .error rfl⟩
      | some e =>
        obtain ⟨keyword, d⟩ := e
        rw [hl] at hl'
        rw [step_eq_of_lookup? hl, step_eq_of_lookup? hl']
        -- the two words are told apart by the lookahead only, and no directive looks at it
        have hwithin : (expanded settings).Within (dispatched c keyword word)
            { dispatched c' keyword (Directive.expand word) with word := some word } :=
          ⟨⟨word, hw, rfl⟩, (Cursor.over_expanded hc hc').takes _ (.dispatching keyword word)
            (.dispatching keyword (Directive.expand word))⟩
        have hcomments : c'.reader.top.comments = c.reader.top.comments :=
          hc'.1.2.2.2.2.trans hc.1.2.2.2.2.symm
        rcases apply_of_within (expanded settings).pairing hwithin hcomments rfl with
          happly | ⟨hf, -⟩
        · exact happly.trans (apply_of_reader ctx _ config d rfl)
        · exact hf.elim

/-- The two readings end alike. -/
theorem run_of_expanded {config : Configuration} {c c' : Cursor}
    (h : (expanded settings).pairing.Paired c c') :
    unlocated (run ctx config c').ending = unlocated (run ctx config c).ending := by
  fun_induction run ctx config c generalizing c' with
  | case1 config c hw =>
    rcases h with h | ⟨ts, hc, hc', -, -⟩
    · obtain ⟨w, hword, -⟩ := (expanded settings).pairing.reading h
      rw [hw] at hword
      cases hword
    · have hword := hc.1.word
      rw [hw] at hword
      cases ts with
      | nil =>
        rw [run_of_none hc'.1.word]
        rfl
      | cons t ts => cases hword
  | case2 config c word hw config₁ e c₁ hs =>
    obtain ⟨word', hw', hstep⟩ := @step_of_expanded ctx settings config word c c' h hw
    rw [hs] at hstep
    rw [run_of_some hw']
    rcases hs' : step ctx config word' c' with ⟨config₁', r'⟩
    rw [hs'] at hstep
    obtain ⟨e', c₁', rfl, he⟩ := hstep.result.of_error
    exact hstep.unlocated
  | case3 config c word hw config₁ c₁ hs ih =>
    obtain ⟨word', hw', hstep⟩ := @step_of_expanded ctx settings config word c c' h hw
    rw [hs] at hstep
    rw [run_of_some hw']
    rcases hs' : step ctx config word' c' with ⟨config₁', r'⟩
    rw [hs'] at hstep
    obtain ⟨c₁', rfl, hp⟩ := hstep.result.of_ok
    have hconfig : config₁' = config₁ := by simpa using hstep.config
    rw [hconfig]
    exact ih hp

/-- **Abbreviated keywords are as good as full ones.** A text and the same text with every word that
stands for a keyword replaced by the keyword are read alike, into any configuration: the
configurations are the same, and so are the errors up to their places. Full keywords stand for
themselves, so that writing out the keywords again changes nothing. -/
theorem readInto_expanded (ctx : Context) {settings : Settings}
    (hs : settings.pathSeparator = ':' ∨ settings.pathSeparator = ';') (config : Configuration)
    (name text : String) :
    ∃ full, full = Word.reword settings.pathSeparator text
        ((Word.list settings.pathSeparator text).map Directive.expand) ∧
      Word.list settings.pathSeparator full =
        (Word.list settings.pathSeparator text).map Directive.expand ∧
      unlocated (readInto ctx settings config (.ofText name full)) =
        unlocated (readInto ctx settings config (.ofText name text)) ∧
      Word.reword settings.pathSeparator full
        ((Word.list settings.pathSeparator full).map Directive.expand) = full ∧
      ∀ e ∈ Directive.table, Directive.lookup? e.1 = some e := by
  have hreplaces : List.Forall₂ (Word.Replaces settings.pathSeparator)
      (Word.list settings.pathSeparator text)
      ((Word.list settings.pathSeparator text).map Directive.expand) := by
    rw [List.forall₂_map_right_iff, List.forall₂_same]
    exact fun w hw => Directive.replaces_expand hs (Word.isWord_of_mem_list hw)
  have hlist := Word.list_reword hreplaces
  have htokens : Word.ofText settings.pathSeparator (Word.reword settings.pathSeparator text
      ((Word.list settings.pathSeparator text).map Directive.expand)) =
        expandAll (Word.ofText settings.pathSeparator text) := by
    rw [Word.ofText_reword_words hreplaces, Word.list, List.map_map, List.zip_map']
    rfl
  refine ⟨_, rfl, hlist, ?_, ?_, fun e he => (Directive.lookup?_of_mem_table e he).2⟩
  · obtain ⟨c, hc, hstands⟩ := Cursor.stands_of_text settings name text
    obtain ⟨c', hc', hstands'⟩ := Cursor.stands_of_text settings name
      (Word.reword settings.pathSeparator text
        ((Word.list settings.pathSeparator text).map Directive.expand))
    rw [htokens] at hstands'
    rw [readInto_of_cursor hc, readInto_of_cursor hc']
    exact run_of_expanded (Cursor.paired_expanded hstands hstands')
  · have hidem : Directive.expand ∘ Directive.expand = Directive.expand :=
      funext Directive.expand_expand
    have hself := @Word.reword_list settings.pathSeparator (Word.reword settings.pathSeparator text
      ((Word.list settings.pathSeparator text).map Directive.expand))
    rw [hlist] at hself ⊢
    rw [List.map_map, hidem]
    exact hself

/-- The word in the comment is no keyword. -/
theorem readInto_expanded_verbose :
    unlocated (readInto bareContext {} {} (.ofText "n" "-verbose # -v")) =
      unlocated (readInto bareContext {} {} (.ofText "n" "-v # -v")) := by
  have hfull : Word.reword ':' "-v # -v" ((Word.list ':' "-v # -v").map Directive.expand) =
      "-verbose # -v" := by decide
  obtain ⟨full, rfl, -, hread, -⟩ := @readInto_expanded bareContext {} (.inl rfl) {} "n" "-v # -v"
  exact hfull ▸ hread

end

end Configuration

end KeepRules
