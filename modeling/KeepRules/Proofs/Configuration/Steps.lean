import KeepRules.Proofs.Configuration.Foundation

/-! # Single directives

When a directive succeeds, and which words it takes to do so. Apart from an include, it depends on
nothing but the words after its keyword and on what follows them: not on the configuration, and not
on the sources that the words come from.

* `Directive.Admits`: the words that complete a directive.
* `apply_iff`, `includeFile_iff`: a directive that is no include, and an include.
* `Proceeds`: one directive takes a cursor to another, whatever the configuration
  (`proceeds_of_step`, `Proceeds.step`).
* `Comes`: a run gets as far as a cursor. -/

set_option autoImplicit false

namespace KeepRules

open KeepRules.Parser

/-- The words complete a directive other than an include, when `following` comes after them. -/
def Directive.Admits (ctx : Context) (separator : Char) (ws : List String)
    (following : Option String) : Directive → Prop
  | .includeFile => False
  | .classPath _ => ∃ es entries, ClassPath.ValidPhrases separator es ∧
      ClassPath.Say ctx es entries ∧ ws = ClassPath.phraseWords separator es ∧
      following.all starts = true
  | .keep _ => ∃ p : RulePhrase, p.Valid ∧ ws = p.words ∧
      (p.block = none → following.all starts = true)
  | .keepAttributes => ws = [] ∧ following.all starts = true ∨ ws = ["*"] ∨
      ∃ n ns, (∀ m ∈ n :: ns, starts m = false) ∧ n ≠ "*" ∧ ws = (n :: ns).intersperse "," ∧
        following.all starts = true
  | .text _ => ws = [] ∧ following.all starts = true ∨ ∃ w, ws = [w] ∧ starts w = false
  | .switch _ => ws = []

namespace Configuration

theorem settle_eq_ok_iff {α : Type} {r : EStateM.Result ParseError Cursor α}
    {done : α → Configuration} {failed : Configuration} {c : Cursor} :
    (∃ config, settle r done failed = (config, .ok () c)) ↔ ∃ a, r = .ok a c := by
  constructor
  · rintro ⟨config, h⟩
    exact settle_snd_eq_ok (congrArg Prod.snd h)
  · rintro ⟨a, rfl⟩
    exact ⟨done a, rfl⟩

section
variable {ctx : Context}

/-- A directive other than an include succeeds exactly on the words that complete it. -/
theorem apply_iff (comments : Option String) (config : Configuration) {d : Directive}
    {c c' : Cursor} (hd : d ≠ .includeFile) :
    (∃ config', apply ctx comments config d c = (config', .ok () c')) ↔
      ∃ ws, c.Passes ws c' ∧ d.Admits ctx c.reader.separator ws c'.word := by
  cases d with
  | includeFile => exact absurd rfl hd
  | classPath role =>
    simp only [apply, settle_eq_ok_iff, ClassPath.parser_iff, Directive.Admits]
    constructor
    · rintro ⟨p, es, entries, hv, hs, hp, hend, -⟩
      exact ⟨_, hp, es, entries, hv, hs, rfl, hend⟩
    · rintro ⟨_, hp, es, entries, hv, hs, rfl, hend⟩
      exact ⟨_, es, entries, hv, hs, hp, hend, rfl⟩
  | keep intent =>
    simp only [apply, settle_eq_ok_iff, KeepRule.parser_iff, Directive.Admits]
    constructor
    · rintro ⟨rule, p, hv, hp, hend, -⟩
      exact ⟨_, hp, p, hv, rfl, hend⟩
    · rintro ⟨_, hp, p, hv, rfl, hend⟩
      exact ⟨_, p, hv, hp, hend, rfl⟩
  | keepAttributes =>
    simp only [apply, settle_eq_ok_iff, attributes_iff, Directive.Admits]
    constructor
    · rintro ⟨l, ⟨hp, hend, -⟩ | ⟨hp, -⟩ | ⟨n, ns, hs, hn, hp, hend, -⟩⟩
      · exact ⟨_, hp, .inl ⟨rfl, hend⟩⟩
      · exact ⟨_, hp, .inr (.inl rfl)⟩
      · exact ⟨_, hp, .inr (.inr ⟨n, ns, hs, hn, rfl, hend⟩)⟩
    · rintro ⟨_, hp, ⟨rfl, hend⟩ | rfl | ⟨n, ns, hs, hn, rfl, hend⟩⟩
      · exact ⟨_, .inl ⟨hp, hend, rfl⟩⟩
      · exact ⟨_, .inr (.inl ⟨hp, rfl⟩)⟩
      · exact ⟨_, .inr (.inr ⟨n, ns, hs, hn, hp, hend, rfl⟩)⟩
  | text o =>
    simp only [apply, settle_eq_ok_iff, argument_iff, Directive.Admits]
    constructor
    · rintro ⟨w, ⟨hp, hend, -⟩ | ⟨hp, hs⟩⟩
      · exact ⟨_, hp, .inl ⟨rfl, hend⟩⟩
      · exact ⟨_, hp, .inr ⟨w, rfl, hs⟩⟩
    · rintro ⟨_, hp, ⟨rfl, hend⟩ | ⟨w, rfl, hs⟩⟩
      · exact ⟨_, .inl ⟨hp, hend, rfl⟩⟩
      · exact ⟨w, .inr ⟨hp, hs⟩⟩
  | switch s =>
    simp only [apply, settle_eq_ok_iff, Directive.Admits]
    constructor
    · rintro ⟨_, ha⟩
      exact ⟨_, Cursor.Passes.nil_iff.2 ha, rfl⟩
    · rintro ⟨_, hp, rfl⟩
      exact ⟨(), Cursor.Passes.nil_iff.1 hp⟩

/-- The include at the lookahead names a file; the cursor is then at that name. -/
def Names (ctx : Context) (c : Cursor) (name : String) (c₁ : Cursor) : Prop :=
  ∃ w, readWord .fileName c = .ok w c₁ ∧ ctx.replace w = .ok name

/-- Reading goes on in the file that is named. -/
theorem includeFile_of_names {c c₁ : Cursor} {name : String} {source : Source}
    (hn : Names ctx c name c₁) (ho : Source.ofFile ctx.host name = .ok source) :
    includeFile ctx c = (enter source >>= fun _ => advance) c₁ := by
  obtain ⟨w, hr, hs⟩ := hn
  have hsub : substitute ctx w c₁ = .ok name c₁ := substitute_eq_ok.2 ⟨hs, rfl⟩
  have hfile : liftError (Source.ofFile ctx.host name) c₁ = .ok source c₁ := by
    rw [ho]
    rfl
  unfold includeFile
  simp only [bind_apply, hr, hsub, hfile]

theorem includeFile_iff {c c' : Cursor} :
    includeFile ctx c = .ok () c' ↔
      ∃ name source c₁ c₂, Names ctx c name c₁ ∧ Source.ofFile ctx.host name = .ok source ∧
        enter source c₁ = .ok () c₂ ∧ advance c₂ = .ok () c' := by
  constructor
  · intro h
    simp only [includeFile, bind_eq_ok, substitute_eq_ok] at h
    obtain ⟨w, c₁, hr, name, _, ⟨hs, rfl⟩, source, c₁', hl, _, c₂, he, ha⟩ := h
    unfold liftError at hl
    split at hl <;> cases hl
    next ho => exact ⟨name, source, _, c₂, ⟨w, hr, hs⟩, ho, he, ha⟩
  · rintro ⟨name, source, c₁, c₂, hn, ho, he, ha⟩
    rw [includeFile_of_names hn ho]
    exact bind_eq_ok.2 ⟨(), c₂, he, ha⟩

/-- What is known of a cursor when a source has been put on top of the others. -/
structure Entered (settings : Settings) (source : Source) (c c' : Cursor) : Prop where
  enter : Parser.enter source c = .ok () c'
  word : c'.word = c.word
  follows : c'.reader.Follows settings
  stack : c'.reader.stack = { source := source } :: c.reader.stack
  depth : c.reader.depth < settings.maxIncludeDepth

/-- A source is put on top of the others, unless as many are open as may be. -/
theorem tooDeep_or_entered {settings : Settings} {c : Cursor} (hc : c.reader.Follows settings)
    (source : Source) :
    (settings.maxIncludeDepth ≤ c.reader.depth ∧ ∃ location c', enter source c =
        .error (.rejected (.nestedTooDeep settings.maxIncludeDepth) location) c') ∨
      ∃ c', Entered settings source c c' := by
  by_cases hd : c.reader.depth < c.reader.limit
  · have he : enter source c = .ok () { c with
        reader := { c.reader with
          top := { source := source }
          below := c.reader.stack
          trail := .entering (c.reader.depth + 1) source.origin :: c.reader.trail } } := by
      rw [enter, Reader.includeSource_of_lt source hd]
    exact .inr ⟨_, he, rfl, hc, rfl, hc.2 ▸ hd⟩
  · have he : enter source c =
        .error (.rejected (.nestedTooDeep c.reader.limit) c.reader.location) c := by
      rw [enter, Reader.includeSource_of_le source (Nat.not_lt.1 hd)]
    rw [hc.2] at he hd
    exact .inl ⟨Nat.le_of_not_lt hd, _, _, he⟩

theorem entered_of_enter {settings : Settings} {source : Source} {c c' : Cursor}
    (hc : c.reader.Follows settings) (h : enter source c = .ok () c') :
    Entered settings source c c' := by
  rcases tooDeep_or_entered hc source with ⟨-, location, c₁, he⟩ | ⟨c₁, he⟩
  · rw [h] at he
    cases he
  · have heq := he.enter
    rw [h] at heq
    cases heq
    exact he

/-! ## Steps -/

/-- The lookahead is the keyword of an include of the file. -/
def Includes (ctx : Context) (c : Cursor) (name : String) (c₁ : Cursor) : Prop :=
  ∃ word keyword, c.word = some word ∧ Directive.lookup? word = some (keyword, .includeFile) ∧
    Names ctx (dispatched c keyword word) name c₁

/-- A directive takes the cursor, at its keyword, to where it ends. -/
inductive Proceeds (ctx : Context) (c c' : Cursor) : Prop where
  | words {word keyword : String} {d : Directive} {ws : List String} :
      c.word = some word → Directive.lookup? word = some (keyword, d) →
      (dispatched c keyword word).Passes ws c' →
      d.Admits ctx c.reader.separator ws c'.word → Proceeds ctx c c'
  | inclusion {name : String} {source : Source} {c₁ c₂ : Cursor} :
      Includes ctx c name c₁ → Source.ofFile ctx.host name = .ok source →
      enter source c₁ = .ok () c₂ → advance c₂ = .ok () c' → Proceeds ctx c c'

theorem proceeds_of_step {config config' : Configuration} {word : String} {c c' : Cursor}
    (hw : c.word = some word) (h : step ctx config word c = (config', .ok () c')) :
    Proceeds ctx c c' := by
  cases hl : Directive.lookup? word with
  | none =>
    simp only [step, hl] at h
    cases h
  | some p =>
    obtain ⟨keyword, d⟩ := p
    rw [step_eq_of_lookup? hl] at h
    by_cases hd : d = .includeFile
    · subst hd
      obtain ⟨u, hi⟩ := settle_eq_ok_iff.1 ⟨config', h⟩
      obtain ⟨name, source, c₁, c₂, hn, ho, he, ha⟩ := includeFile_iff.1 hi
      exact .inclusion ⟨word, keyword, hw, hl, hn⟩ ho he ha
    · obtain ⟨ws, hp, hadmits⟩ := (apply_iff _ _ hd).1 ⟨config', h⟩
      exact .words hw hl hp hadmits

theorem Proceeds.step {c c' : Cursor} (h : Proceeds ctx c c') (config : Configuration) :
    ∃ word config', c.word = some word ∧
      Configuration.step ctx config word c = (config', .ok () c') := by
  cases h with
  | @words word keyword d ws hw hl hp hadmits =>
    have hd : d ≠ .includeFile := by
      rintro rfl
      exact hadmits
    obtain ⟨config', h⟩ := (apply_iff c.reader.top.comments config hd).2
      ⟨ws, hp, hadmits⟩
    exact ⟨word, config', hw, (step_eq_of_lookup? hl).trans h⟩
  | @inclusion name source c₁ c₂ hincludes ho he ha =>
    obtain ⟨word, keyword, hw, hl, hn⟩ := hincludes
    have hi := includeFile_iff.2 ⟨name, source, c₁, c₂, hn, ho, he, ha⟩
    refine ⟨word, config, hw, ?_⟩
    rw [step_eq_of_lookup? hl, apply, hi]
    rfl

/-- Reading directives one after the other gets as far as a cursor. -/
inductive Comes (ctx : Context) : Configuration → Cursor → Configuration → Cursor → Prop where
  | refl {config : Configuration} {c : Cursor} : Comes ctx config c config c
  | step {config config₁ config' : Configuration} {c c₁ c' : Cursor} {word : String} :
      c.word = some word → Configuration.step ctx config word c = (config₁, .ok () c₁) →
      Comes ctx config₁ c₁ config' c' → Comes ctx config c config' c'

theorem Comes.run {config config' : Configuration} {c c' : Cursor}
    (h : Comes ctx config c config' c') : run ctx config c = run ctx config' c' := by
  induction h with
  | refl => rfl
  | step hw hs _ ih => rw [run_of_some hw, hs, ← ih]

end

end Configuration

end KeepRules
