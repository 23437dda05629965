import KeepRules.ClassPath.Parser
import KeepRules.Proofs.Property
import KeepRules.Proofs.Reading

/-! # Class paths are read by their grammar

An entry is written as a name, possibly with filters in parentheses (`EntryPhrase`). The word that
closes the filters may be anything but a comma; what the words say depends on the properties
(`EntryPhrase.Says`).

* `filterLoop_run_iff`, `filter?_iff`, `entryRound_iff`: the parts of the parser succeed exactly on
  the words of such phrases.
* `parser_iff`: a class path is read exactly if its words are those of entries between separators,
  up to the end of the directive.
* `parser_accepts_iff`: the same by the words ahead, of which `ClassPath.Derives` takes some off the
  front; all other words are rejected. -/

set_option autoImplicit false

namespace KeepRules

open KeepRules.Parser

/-- An entry as it is written. -/
structure EntryPhrase where
  word : String
  /-- The filters, and the word after the last of them. -/
  filters : Option (List String × String)
  deriving DecidableEq

namespace EntryPhrase

def filterWords : Option (List String × String) → List String
  | none => []
  | some (fs, closing) => "(" :: fs.intersperse "," ++ [closing]

def words (e : EntryPhrase) : List String := e.word :: filterWords e.filters

def ValidFilters : Option (List String × String) → Prop
  | none => True
  | some (fs, closing) =>
    fs ≠ [] ∧ (∀ f ∈ fs, Directive.starts f = false) ∧ closing ≠ "," ∧
      Directive.starts closing = false

structure Valid (e : EntryPhrase) : Prop where
  word : Directive.starts e.word = false
  filters : ValidFilters e.filters

/-- The words of a list stand for the texts of another. -/
def Replaces (ctx : Context) (ws texts : List String) : Prop :=
  ws.map ctx.replace = texts.map .ok

def SaysFilter (ctx : Context) : Option (List String × String) → Option String → Prop
  | none, filter => filter = none
  | some (fs, _), filter => ∃ texts, Replaces ctx fs texts ∧ filter = some (",".intercalate texts)

/-- What the phrase stands for, its references replaced. -/
structure Says (ctx : Context) (e : EntryPhrase) (p : PathEntry) : Prop where
  name : ctx.replace e.word = .ok p.name
  filter : SaysFilter ctx e.filters p.filter

end EntryPhrase

namespace ClassPath

open EntryPhrase (filterWords ValidFilters Replaces SaysFilter)

/-- The words of entries between separators. -/
def phraseWords (separator : Char) (es : List EntryPhrase) : List String :=
  [separator.toString].intercalate (es.map EntryPhrase.words)

/-- Entries that can be told apart: a separator between two of them does not end the directive, and
does not open the filters of the entry before it. -/
def ValidPhrases (separator : Char) : List EntryPhrase → Prop
  | [] => False
  | [e] => e.Valid
  | e :: es =>
    e.Valid ∧ Directive.starts separator.toString = false ∧
      (e.filters = none → separator.toString ≠ "(") ∧ ValidPhrases separator es

/-- The words are those of the entries, and then the rest, with which the directive ends. After a
name, a parenthesis always opens filters: no separator after a name without them is one, and the
rest starts with none. -/
structure Derives (separator : Char) (es : List EntryPhrase) (ws rest : List String) : Prop where
  valid : ValidPhrases separator es
  split : ws = phraseWords separator es ++ rest
  ends : rest.head?.all Directive.starts = true

/-- The entries that the phrases stand for, in order. -/
def Say (ctx : Context) : List EntryPhrase → ClassPath → Prop
  | [], p => p = []
  | e :: es, p => ∃ entry rest, e.Says ctx entry ∧ Say ctx es rest ∧ p = entry :: rest

theorem phraseWords_cons_cons (separator : Char) (e e' : EntryPhrase) (es : List EntryPhrase) :
    phraseWords separator (e :: e' :: es) =
      e.words ++ separator.toString :: phraseWords separator (e' :: es) := by
  simp [phraseWords, List.intercalate_cons_cons]

theorem starts_of_mem_words {e : EntryPhrase} (hv : e.Valid) :
    ∀ w ∈ e.words, Directive.starts w = false := by
  obtain ⟨word, filters⟩ := e
  intro w hw
  rcases List.mem_cons.1 hw with rfl | hw
  · exact hv.word
  · cases filters with
    | none => cases hw
    | some q =>
      obtain ⟨fs, closing⟩ := q
      obtain ⟨-, hfs, -, hclosing⟩ := hv.filters
      rcases List.mem_append.1 hw with hw | hw
      · rcases List.mem_cons.1 hw with rfl | hw
        · decide
        · rcases Word.eq_or_mem_of_mem_intersperse hw with rfl | hw
          · decide
          · exact hfs w hw
      · exact List.mem_singleton.1 hw ▸ hclosing

/-- No word of a class path ends the directive. -/
theorem starts_of_mem_phraseWords {separator : Char} {es : List EntryPhrase}
    (hv : ValidPhrases separator es) :
    ∀ w ∈ phraseWords separator es, Directive.starts w = false := by
  induction es with
  | nil => exact hv.elim
  | cons e es ih =>
    cases es with
    | nil =>
      have he : phraseWords separator [e] = e.words := by simp [phraseWords]
      rw [he]
      exact starts_of_mem_words hv
    | cons e' es =>
      obtain ⟨hve, hsep, -, hves⟩ := hv
      intro w hw
      rw [phraseWords_cons_cons] at hw
      rcases List.mem_append.1 hw with hw | hw
      · exact starts_of_mem_words hve w hw
      · rcases List.mem_cons.1 hw with rfl | hw
        · exact hsep
        · exact ih hves w hw

/-! ## Filters -/

theorem filterRound_iff {ctx : Context} {filters : List String} {c c' : Cursor}
    {r : Round (List String) (List String)} :
    filterRound ctx filters c = .ok r c' ↔
      ∃ w text next, Directive.starts w = false ∧ ctx.replace w = .ok text ∧
        Directive.starts next = false ∧ c.Reads [w, next] c' ∧
        r = if next = "," then .again (filters ++ [text]) else .done (filters ++ [text]) := by
  simp only [filterRound, bind_eq_ok, readWord_iff, substitute_eq_ok, pure_eq_ok]
  constructor
  · rintro ⟨w, c₁, ⟨h₁, hw⟩, text, _, ⟨ht, rfl⟩, next, c₂, ⟨h₂, hn⟩, rfl, rfl⟩
    exact ⟨w, text, next, hw, ht, hn, h₁.append h₂, rfl⟩
  · rintro ⟨w, text, next, hw, ht, hn, hr, rfl⟩
    obtain ⟨c₁, h₁, h₂⟩ := Cursor.Reads.cons_iff.1 hr
    exact ⟨w, c₁, ⟨h₁, hw⟩, text, c₁, ⟨ht, rfl⟩, next, c', ⟨h₂, hn⟩, rfl, rfl⟩

theorem reads_of_filterLoop {ctx : Context} {acc filters : List String} {c c' : Cursor}
    (h : (filterLoop ctx).run acc c = .ok filters c') :
    ∃ fs closing texts, ValidFilters (some (fs, closing)) ∧ Replaces ctx fs texts ∧
      c.Reads (fs.intersperse "," ++ [closing]) c' ∧ filters = acc ++ texts := by
  refine Loop.run_induction (P := fun acc c filters c' => ∃ fs closing texts,
    ValidFilters (some (fs, closing)) ∧ Replaces ctx fs texts ∧
    c.Reads (fs.intersperse "," ++ [closing]) c' ∧ filters = acc ++ texts) ?_ ?_ h
  · intro acc c filters c' hr
    obtain ⟨w, text, next, hw, ht, hn, hc, he⟩ := filterRound_iff.1 hr
    split at he
    · cases he
    · next hne =>
      cases he
      refine ⟨[w], next, [text], ⟨by simp, by simpa using hw, hne, hn⟩, ?_, hc, rfl⟩
      simp [Replaces, ht]
  · intro acc c acc' c₁ filters c' hr ih
    obtain ⟨w, text, next, hw, ht, hn, hc, he⟩ := filterRound_iff.1 hr
    split at he
    · next hnext =>
      cases he
      obtain ⟨fs, closing, texts, ⟨hne, hfs, hclosing⟩, hrep, hrd, rfl⟩ := ih
      rw [hnext] at hc
      cases fs with
      | nil => exact absurd rfl hne
      | cons f fs =>
        refine ⟨w :: f :: fs, closing, text :: texts, ⟨by simp, ?_, hclosing⟩, ?_,
          hc.append hrd, by simp⟩
        · intro g hg
          rcases List.mem_cons.1 hg with rfl | hg
          · exact hw
          · exact hfs g hg
        · simpa [Replaces, ht] using hrep
    · cases he

theorem filterLoop_of_reads {ctx : Context} {acc fs texts : List String} {closing : String}
    {c c' : Cursor} (hv : ValidFilters (some (fs, closing))) (hrep : Replaces ctx fs texts)
    (hr : c.Reads (fs.intersperse "," ++ [closing]) c') :
    (filterLoop ctx).run acc c = .ok (acc ++ texts) c' := by
  obtain ⟨hne, hfs, hc, hs⟩ := hv
  induction fs generalizing acc texts c with
  | nil => exact absurd rfl hne
  | cons w fs ih =>
    have hw := hfs w List.mem_cons_self
    cases texts with
    | nil => simp [Replaces] at hrep
    | cons text texts =>
      have ⟨ht, hrep'⟩ : ctx.replace w = .ok text ∧ Replaces ctx fs texts := by
        simpa [Replaces] using hrep
      cases fs with
      | nil =>
        obtain rfl : texts = [] := by simpa [Replaces] using hrep'.symm
        refine Loop.run_eq_ok.2 (.inl (filterRound_iff.2 ⟨w, text, closing, hw, ht, hs, hr, ?_⟩))
        rw [if_neg hc]
      | cons f fs =>
        obtain ⟨c₁, h₁, h₂⟩ := Cursor.Reads.append_iff (u := [w, ","]).1 hr
        refine Loop.run_eq_ok.2 (.inr ⟨acc ++ [text], c₁,
          filterRound_iff.2 ⟨w, text, ",", hw, ht, by decide, h₁, (if_pos rfl).symm⟩, ?_⟩)
        rw [List.append_cons acc text texts]
        exact ih hrep' h₂ (by simp) fun g hg => hfs g (List.mem_cons_of_mem _ hg)

theorem filterLoop_run_iff {ctx : Context} {filters : List String} {c c' : Cursor} :
    (filterLoop ctx).run [] c = .ok filters c' ↔
      ∃ fs closing, ValidFilters (some (fs, closing)) ∧ Replaces ctx fs filters ∧
        c.Reads (fs.intersperse "," ++ [closing]) c' := by
  constructor
  · intro h
    obtain ⟨fs, closing, texts, hv, hrep, hr, rfl⟩ := reads_of_filterLoop h
    exact ⟨fs, closing, hv, hrep, hr⟩
  · rintro ⟨fs, closing, hv, hrep, hr⟩
    exact filterLoop_of_reads hv hrep hr

theorem filter?_iff {ctx : Context} {filter : Option String} {c c' : Cursor} :
    filter? ctx c = .ok filter c' ↔
      ∃ fs, ValidFilters fs ∧ SaysFilter ctx fs filter ∧ c.Takes (filterWords fs) c' ∧
        (fs = none → c.word ≠ some "(") := by
  simp only [filter?, bind_eq_ok, isAt_eq_ok, Cursor.is]
  constructor
  · rintro ⟨b, _, ⟨hb, rfl⟩, h⟩
    split at h
    · next hopen =>
      simp only [bind_eq_ok, filterLoop_run_iff, pure_eq_ok] at h
      obtain ⟨filters, m, ⟨fs, closing, hv, hrep, hr⟩, _, _, ha, rfl, rfl⟩ := h
      have hw : c.word = some "(" := by simpa [hopen] using hb
      exact ⟨some (fs, closing), hv, ⟨filters, hrep, rfl⟩,
        Cursor.Takes.cons_iff.2 ⟨hw, m, hr, ha⟩, fun hfs => by cases hfs⟩
    · next hopen =>
      obtain ⟨rfl, rfl⟩ := pure_eq_ok.1 h
      have hw : c.word ≠ some "(" := by simpa [hopen] using hb
      exact ⟨none, trivial, rfl, .nil, fun _ => hw⟩
  · rintro ⟨fs, hv, hsays, ht, hne⟩
    cases fs with
    | none =>
      obtain rfl := Cursor.Takes.nil_iff.1 ht
      obtain rfl : filter = none := hsays
      refine ⟨false, c', ⟨by simpa using hne rfl, rfl⟩, ?_⟩
      rw [if_neg (by decide)]
      exact pure_eq_ok.2 ⟨rfl, rfl⟩
    | some q =>
      obtain ⟨fs, closing⟩ := q
      obtain ⟨texts, hrep, rfl⟩ := hsays
      obtain ⟨hw, m, hr, ha⟩ := Cursor.Takes.cons_iff.1 ht
      refine ⟨true, c, ⟨by simp [hw], rfl⟩, ?_⟩
      rw [if_pos rfl]
      simp only [bind_eq_ok, filterLoop_run_iff, pure_eq_ok]
      exact ⟨texts, m, ⟨fs, closing, hv, hrep, hr⟩, (), c', ha, rfl, rfl⟩

/-! ## Entries -/

theorem entryRound_iff {ctx : Context} {separator : Char} {path : ClassPath} {c c' : Cursor}
    {r : Round ClassPath ClassPath} :
    entryRound ctx separator path c = .ok r c' ↔
      ∃ (e : EntryPhrase) (p : PathEntry), e.Valid ∧ e.Says ctx p ∧ c.Passes e.words c' ∧
        (e.filters = none → c'.word ≠ some "(") ∧
        ((c'.atEnd = true ∧ r = .done (path ++ [p])) ∨
          (c'.atEnd = false ∧ c'.word = some separator.toString ∧ r = .again (path ++ [p]))) := by
  simp only [entryRound, bind_eq_ok, readWord_iff, substitute_eq_ok, filter?_iff, atEnd_eq_ok]
  constructor
  · rintro ⟨w, c₁, ⟨h₁, hw⟩, name, _, ⟨hname, rfl⟩, _, c₂, h₂, filter, c₃,
      ⟨fs, hfs, hsays, ht, hne⟩, b, _, ⟨hb, rfl⟩, h⟩
    have hp : c.Passes (w :: filterWords fs) c₃ :=
      Cursor.Passes.takes_iff (u := [w]).2 ⟨c₂, ⟨c₁, h₁, h₂⟩, ht⟩
    have hopen : fs = none → c₃.word ≠ some "(" := by
      rintro rfl
      rw [Cursor.Takes.nil_iff.1 ht]
      exact hne rfl
    split at h
    · next hend =>
      obtain ⟨rfl, rfl⟩ := pure_eq_ok.1 h
      exact ⟨⟨w, fs⟩, ⟨name, filter⟩, ⟨hw, hfs⟩, ⟨hname, hsays⟩, hp, hopen,
        .inl ⟨hb.trans hend, rfl⟩⟩
    · next hend =>
      simp only [bind_eq_ok, isAt_eq_ok, Cursor.is] at h
      obtain ⟨b', _, ⟨hb', rfl⟩, h⟩ := h
      split at h
      · next hsep =>
        obtain ⟨rfl, rfl⟩ := pure_eq_ok.1 h
        have hword : c₃.word = some separator.toString := by simpa [hsep] using hb'
        have hend' : c₃.atEnd = false := hb.trans (by simpa using hend)
        exact ⟨⟨w, fs⟩, ⟨name, filter⟩, ⟨hw, hfs⟩, ⟨hname, hsays⟩, hp, hopen,
          .inr ⟨hend', hword, rfl⟩⟩
      · exact (reject_ne_ok h).elim
  · rintro ⟨⟨w, fs⟩, ⟨name, filter⟩, ⟨hw, hfs⟩, ⟨hname, hsays⟩, hp, hopen, h⟩
    obtain ⟨c₂, ⟨c₁, h₁, h₂⟩, ht⟩ := Cursor.Passes.takes_iff (u := [w]).1 hp
    refine ⟨w, c₁, ⟨h₁, hw⟩, name, c₁, ⟨hname, rfl⟩, (), c₂, h₂, filter, c',
      ⟨fs, hfs, hsays, ht, ?_⟩, c'.atEnd, c', ⟨rfl, rfl⟩, ?_⟩
    · rintro rfl
      rw [← Cursor.Takes.nil_iff.1 ht]
      exact hopen rfl
    · rcases h with ⟨hend, rfl⟩ | ⟨hend, hword, rfl⟩
      · rw [if_pos hend]
        exact pure_eq_ok.2 ⟨rfl, rfl⟩
      · rw [if_neg (by simp [hend])]
        simp only [bind_eq_ok, isAt_eq_ok, Cursor.is]
        refine ⟨true, c', ⟨by simp [hword], rfl⟩, ?_⟩
        rw [if_pos rfl]
        exact pure_eq_ok.2 ⟨rfl, rfl⟩

theorem phrases_of_entryLoop {ctx : Context} {separator : Char} {path p : ClassPath}
    {c c' : Cursor} (h : (entryLoop ctx separator).run path c = .ok p c') :
    ∃ es entries, ValidPhrases separator es ∧ Say ctx es entries ∧
      c.Passes (phraseWords separator es) c' ∧ c'.atEnd = true ∧ p = path ++ entries := by
  refine Loop.run_induction (P := fun path c p c' => ∃ es entries, ValidPhrases separator es ∧
    Say ctx es entries ∧ c.Passes (phraseWords separator es) c' ∧ c'.atEnd = true ∧
    p = path ++ entries) ?_ ?_ h
  · intro path c p c' hr
    obtain ⟨e, entry, hv, hs, hp, -, ⟨hend, he⟩ | ⟨-, -, he⟩⟩ := entryRound_iff.1 hr <;> cases he
    refine ⟨[e], [entry], hv, ⟨entry, [], hs, rfl, rfl⟩, ?_, hend, rfl⟩
    simpa [phraseWords] using hp
  · intro path c path' c₁ p c' hr ih
    obtain ⟨e, entry, hv, hs, hp, hopen, ⟨-, he⟩ | ⟨hend, hw, he⟩⟩ := entryRound_iff.1 hr <;>
      cases he
    obtain ⟨es, entries, hes, hsay, hrd, hend', rfl⟩ := ih
    cases es with
    | nil => exact hes.elim
    | cons e' es =>
      have hstart : Directive.starts separator.toString = false := by
        simpa [Cursor.atEnd, hw] using hend
      have hpar : e.filters = none → separator.toString ≠ "(" := by
        intro hf he
        exact hopen hf (hw.trans (congrArg some he))
      refine ⟨e :: e' :: es, entry :: entries, ⟨hv, hstart, hpar, hes⟩,
        ⟨entry, entries, hs, hsay, rfl⟩, ?_, hend', by simp⟩
      rw [phraseWords_cons_cons, List.append_cons]
      exact (hp.reads hw).passes hrd

theorem entryLoop_of_phrases {ctx : Context} {separator : Char} {path entries : ClassPath}
    {es : List EntryPhrase} {c c' : Cursor} (hv : ValidPhrases separator es)
    (hs : Say ctx es entries) (hp : c.Passes (phraseWords separator es) c')
    (hend : c'.atEnd = true) :
    (entryLoop ctx separator).run path c = .ok (path ++ entries) c' := by
  induction es generalizing path entries c with
  | nil => exact hv.elim
  | cons e es ih =>
    obtain ⟨entry, rest, hsays, hrest, rfl⟩ := hs
    cases es with
    | nil =>
      obtain rfl : rest = [] := hrest
      refine Loop.run_eq_ok.2 (.inl (entryRound_iff.2 ⟨e, entry, hv, hsays, ?_, fun _ hw => ?_,
        .inl ⟨hend, rfl⟩⟩))
      · simpa [phraseWords] using hp
      · rw [Cursor.atEnd, hw] at hend
        exact absurd hend (by decide)
    | cons e' es =>
      obtain ⟨hve, hstart, hpar, hves⟩ := hv
      rw [phraseWords_cons_cons, List.append_cons] at hp
      obtain ⟨c₁, h₁, h₂⟩ := Cursor.Passes.append_iff.1 hp
      have hw : c₁.word = some separator.toString := h₁.word
      refine Loop.run_eq_ok.2 (.inr ⟨path ++ [entry], c₁, entryRound_iff.2 ⟨e, entry, hve, hsays,
        h₁.passes_init, fun hf hw' => ?_, .inr ⟨?_, hw, rfl⟩⟩, ?_⟩)
      · exact hpar hf (Option.some.inj (hw.symm.trans hw'))
      · simpa [Cursor.atEnd, hw] using hstart
      · rw [List.append_cons path entry rest]
        exact ih hves hrest h₂

/-- A class path is read exactly if its words are those of entries, up to the end of the
directive. -/
theorem parser_iff {ctx : Context} {path p : ClassPath} {c c' : Cursor} :
    parser ctx path c = .ok p c' ↔
      ∃ es entries, ValidPhrases c.reader.separator es ∧ Say ctx es entries ∧
        c.Passes (phraseWords c.reader.separator es) c' ∧ c'.atEnd = true ∧
        p = path ++ entries := by
  constructor
  · exact phrases_of_entryLoop
  · rintro ⟨es, entries, hv, hs, hp, hend, rfl⟩
    exact entryLoop_of_phrases hv hs hp hend

/-- There is no class path where the directive is over. -/
theorem parser_of_atEnd {ctx : Context} {path : ClassPath} {c c' : Cursor}
    (ha : advance c = .ok () c') (hend : c'.atEnd = true) :
    parser ctx path c = reject (.expected .pathEntry) c' := by
  have hround : entryRound ctx c.reader.separator path c = reject (.expected .pathEntry) c' := by
    rw [entryRound, bind_apply, readWord_of_atEnd ha hend]
    rfl
  exact Loop.run_of_reject hround

/-- **Class paths are read by their grammar.** Of the words ahead, a class path takes those of
entries off the front, and stops at the rest. The entries are appended to those before, in the
order in which they are written. Words that can not be cut up in this way are rejected. -/
theorem parser_accepts_iff {ctx : Context} {path : ClassPath} {c : Cursor} {ws : List String}
    (h : c.Ahead ws) :
    (∀ p rest, (∃ c', parser ctx path c = .ok p c' ∧ c'.At rest) ↔
      ∃ es entries, Derives c.reader.separator es ws rest ∧ Say ctx es entries ∧
        p = path ++ entries) ∧
    (∀ p c', parser ctx path c = .ok p c' → ∃ rest, c'.At rest) ∧
    ((¬∃ es entries rest, Derives c.reader.separator es ws rest ∧ Say ctx es entries) →
      ∃ e c', parser ctx path c = .error e c') := by
  have sound : ∀ p c', parser ctx path c = .ok p c' → ∃ es entries rest,
      Derives c.reader.separator es ws rest ∧ Say ctx es entries ∧ p = path ++ entries ∧
        c'.At rest := by
    intro p c' hp
    obtain ⟨es, entries, hv, hs, hpass, hend, rfl⟩ := parser_iff.1 hp
    obtain ⟨rest, rfl, hat⟩ := hpass.ahead h
    exact ⟨es, entries, rest, ⟨hv, rfl, hat.atEnd ▸ hend⟩, hs, rfl, hat⟩
  refine ⟨fun p rest => ⟨?_, ?_⟩, fun p c' hp => ?_, fun hnone => ?_⟩
  · rintro ⟨c', hp, hat⟩
    obtain ⟨es, entries, rest', hd, hs, rfl, hat'⟩ := sound p c' hp
    rw [hat.unique hat']
    exact ⟨es, entries, hd, hs, rfl⟩
  · rintro ⟨es, entries, ⟨hv, rfl, hend⟩, hs, rfl⟩
    obtain ⟨c', hpass, hat⟩ := h.passes
    exact ⟨c', parser_iff.2 ⟨es, entries, hv, hs, hpass, hat.atEnd ▸ hend, rfl⟩, hat⟩
  · obtain ⟨es, entries, rest, -, -, -, hat⟩ := sound p c' hp
    exact ⟨rest, hat⟩
  · cases hp : parser ctx path c with
    | error e c' => exact ⟨e, c', rfl⟩
    | ok p c' =>
      obtain ⟨es, entries, rest, hd, hs, -, -⟩ := sound p c' hp
      exact absurd ⟨es, entries, rest, hd, hs⟩ hnone

/-- Delimiters are read as filters and as a name, and the filters are closed by a word that is no
parenthesis. -/
theorem parser_accepts_delimiters :
    ∃ c' : Cursor, parser
      { properties := { entries := [("p", "b c")] }
        host :=
          { environment := ⟨[]⟩, directory := "/", openFile := fun _ => .error .notFound } }
      [{ name := "a" }]
      { reader :=
          { top :=
              { source := { origin := .arguments, unread := [] }
                words := ["<p>", "(", "(", ",", ")", "x", ":", ":", "-verbose"] }
            separator := ':', limit := 0 }
        word := some "-injars" } =
      .ok [{ name := "a" }, { name := "b c", filter := some "(,)" }, { name := ":" }] c' ∧
        c'.At ["-verbose"] := by
  refine ((parser_accepts_iff ⟨rfl, by simp [Reader.Faultless]⟩).1 _ _).2
    ⟨[⟨"<p>", some (["(", ")"], "x")⟩, ⟨":", none⟩], [⟨"b c", some "(,)"⟩, ⟨":", none⟩],
      ⟨⟨⟨by decide, ?_⟩, by decide, nofun, by decide, trivial⟩, rfl, by decide⟩, ?_, rfl⟩
  · exact ⟨by decide, by decide, by decide, by decide⟩
  · have hvalue : Properties.get? { entries := [("p", "b c")] } ⟨[]⟩ "p" = some "b c" := rfl
    refine ⟨⟨"b c", some "(,)"⟩, [⟨":", none⟩], ⟨?_, ["(", ")"], by cbv, by cbv⟩, ?_, rfl⟩
    · simp [Context.replace, Properties.replace, Properties.replaceFrom_zero, Properties.expand,
        Text.cut, Except.map, hvalue]
    · exact ⟨⟨":", none⟩, [], ⟨by cbv, by cbv⟩, rfl, rfl⟩

end ClassPath

end KeepRules
