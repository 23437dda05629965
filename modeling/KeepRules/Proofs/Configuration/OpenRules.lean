import KeepRules.Proofs.Configuration.Abbreviations
import KeepRules.Proofs.Configuration.Layout
import KeepRules.Proofs.Configuration.Steps

/-! # Texts that break off inside a keep rule

The words of a text so far may end inside a keep rule, whose keyword stands in the text itself or in
a file that the text includes last. However the text goes on, reading comes to this rule in the same
way.

* `RuleOpen`: the words so far end in a keep rule, with some words after its keyword.
* `Cursor.StandsOn`, `leading`: two innermost sources with the same words up to the start of a
  directive, above sources that may differ.
* `Frame.Piled`: sources whose words come in front of those of a lower source.
* `Configuration.run_of_ruleOpen`: two texts with the same words so far are read alike, or both
  readings come to the rule that is open, with the words after its keyword ahead. -/

set_option autoImplicit false

namespace KeepRules

open KeepRules.Parser

/-- The words end in a keep rule, which has the words `mid` after its keyword so far. The keyword
may also be the last one of a file, if nothing but words of the rule follow its inclusion. -/
inductive RuleOpen (ctx : Context) (settings : Settings) : List String → List String → Prop where
  | keyword {first mid : List String} {word keyword : String} {intent : KeepIntent} :
      Directive.lookup? word = some (keyword, .keep intent) →
      RuleOpen ctx settings (first ++ word :: mid) mid
  | included {first inner mid rest : List String} {word keyword file name : String}
      {source : Source} :
      Directive.lookup? word = some (keyword, .includeFile) → Directive.starts file = false →
      ctx.replace file = .ok name → Source.ofFile ctx.host name = .ok source →
      (Reader.ofSource source settings).Yields inner → RuleOpen ctx settings inner mid →
      RuleOpen ctx settings (first ++ word :: file :: rest) (mid ++ rest)

theorem RuleOpen.ne_nil {ctx : Context} {settings : Settings} {before mid : List String}
    (h : RuleOpen ctx settings before mid) : before ≠ [] := by
  cases h with
  | keyword _ => exact List.append_ne_nil_of_right_ne_nil _ (List.cons_ne_nil _ _)
  | included _ _ _ _ _ _ => exact List.append_ne_nil_of_right_ne_nil _ (List.cons_ne_nil _ _)

/-! ## The innermost source -/

namespace Cursor

/-- The cursor is at the first of the words of the innermost source, above the others. The comments
collected so far are those of this word. -/
def StandsOn (settings : Settings) (lower : List Frame) (c : Cursor) :
    List (Option String × String) → Prop
  | [] => False
  | (m, w) :: ts =>
    c.word = some w ∧ c.reader.Follows settings ∧ c.reader.below = lower ∧
      c.reader.top.Holds settings.pathSeparator ts ∧ c.reader.top.comments = m

section
variable {settings : Settings} {lower : List Frame} {c : Cursor} {m : Option String} {w : String}
  {ts : List (Option String × String)}

theorem Stands.standsOn (h : c.Stands settings ts) (hts : ts ≠ []) :
    c.StandsOn settings [] ts := by
  cases ts with
  | nil => exact absurd rfl hts
  | cons t ts =>
    obtain ⟨⟨hw, -, hb, hf, hm⟩, hs⟩ := h
    exact ⟨hw, hs, hb, hf, hm⟩

/-- Reading on to a word of the innermost source. -/
theorem standsOn_of_next {r : Reader} {f : Frame} (hs : r.Follows settings)
    (hr : r.stack = f :: lower) (hf : f.Holds settings.pathSeparator ((m, w) :: ts)) :
    ∃ r', r.next = .ok (some w) r' ∧
      StandsOn settings lower ⟨r', some w⟩ ((Frame.joinComments f.comments m, w) :: ts) := by
  rw [← hs.1] at hf
  obtain ⟨g, r', hn, hr', hg, hc⟩ := Reader.next_of_holds hr hf
  obtain ⟨rfl, hb⟩ := List.cons.inj hr'
  rw [hs.1] at hg
  exact ⟨r', hn, rfl, hs.next hn, hb, hg, hc⟩

theorem StandsOn.advance {t : Option String × String}
    (h : c.StandsOn settings lower ((none, w) :: t :: ts)) :
    ∃ c', Parser.advance c = .ok () c' ∧ c'.StandsOn settings lower (t :: ts) := by
  obtain ⟨-, hs, hb, hf, hm⟩ := h
  obtain ⟨r', hn, hr'⟩ := standsOn_of_next hs (congrArg (List.cons _) hb) hf
  rw [hm, Frame.none_joinComments] at hr'
  exact ⟨_, advance_eq_ok.2 hn, hr'⟩

/-- Dispatching a directive takes the comments. -/
theorem StandsOn.dispatched (h : c.StandsOn settings lower ((m, w) :: ts))
    (keyword word : String) :
    (Configuration.dispatched c keyword word).StandsOn settings lower ((none, w) :: ts) := by
  obtain ⟨hw, hs, hb, hf, -⟩ := h
  exact ⟨hw, hs, hb, hf, rfl⟩

end

end Cursor

section
variable (settings : Settings) {lower lower' : List Frame} (hl : lower'.length = lower.length)
  {word : String} (hword : Directive.starts word = true) (ts ts' : List (Option String × String))

/-- Two innermost sources with the same words up to a directive that starts with the word. -/
def leading : Foundation settings id False where
  Rel b b' := ∃ f f' us m, b = f :: lower ∧ b' = f' :: lower' ∧
    f.Holds settings.pathSeparator (us ++ (m, word) :: ts) ∧
    f'.Holds settings.pathSeparator (us ++ (m, word) :: ts') ∧ f'.comments = f.comments
  Beyond c c' := ∃ m, c.StandsOn settings lower ((m, word) :: ts) ∧
    c'.StandsOn settings lower' ((m, word) :: ts')
  ne_nil := by
    rintro _ _ ⟨f, f', us, m, rfl, rfl, -⟩
    exact ⟨List.cons_ne_nil _ _, List.cons_ne_nil _ _⟩
  next := by
    rintro r r' hr hr' ⟨f, f', us, m, hs, hs', hf, hf', hc⟩
    cases us with
    | nil =>
      obtain ⟨r₁, hn, hr₁⟩ := Cursor.standsOn_of_next hr hs hf
      obtain ⟨r₁', hn', hr₁'⟩ := Cursor.standsOn_of_next hr' hs' hf'
      rw [hc] at hr₁'
      exact ⟨_, _, r₁, r₁', hn, hn', .inr ⟨_, hr₁, hr₁'⟩⟩
    | cons u us =>
      obtain ⟨k, w⟩ := u
      rw [← hr.1] at hf
      rw [← hr'.1] at hf'
      obtain ⟨g, r₁, hn, hs₁, hg, hgc⟩ := Reader.next_of_holds hs hf
      obtain ⟨g', r₁', hn', hs₁', hg', hgc'⟩ := Reader.next_of_holds hs' hf'
      rw [hr.1] at hg
      rw [hr'.1] at hg'
      rw [hc, ← hgc] at hgc'
      exact ⟨_, _, r₁, r₁', hn, hn',
        .inl ⟨⟨w, rfl, rfl⟩, g, g', us, m, hs₁, hs₁', hg, hg', hgc'⟩⟩
  ended := by
    rintro c c' ⟨m, ⟨hw, -⟩, ⟨hw', -⟩⟩
    rw [Cursor.atEnd, Cursor.atEnd, hw, hw']
    exact ⟨hword, hword⟩
  comments := by
    rintro f f' b b' ⟨_, _, us, m, hb, hb', -, -, hc⟩
    obtain ⟨rfl, -⟩ := List.cons.inj hb
    obtain ⟨rfl, -⟩ := List.cons.inj hb'
    exact hc
  takes := by
    rintro f f' b b' ⟨_, _, us, m, hb, hb', hf, hf', -⟩
    obtain ⟨rfl, rfl⟩ := List.cons.inj hb
    obtain ⟨rfl, rfl⟩ := List.cons.inj hb'
    exact ⟨_, _, us, m, rfl, rfl, hf, hf', rfl⟩
  height := by
    right
    rintro _ _ ⟨f, f', us, m, rfl, rfl, -⟩
    rw [List.length_cons, List.length_cons, hl]

end

section
variable {settings : Settings} {lower lower' : List Frame} {word : String}
  {ts ts' us : List (Option String × String)} {c c' : Cursor}

theorem Cursor.paired_leading (hl : lower'.length = lower.length)
    (hword : Directive.starts word = true) {m : Option String}
    (hc : c.StandsOn settings lower (us ++ (m, word) :: ts))
    (hc' : c'.StandsOn settings lower' (us ++ (m, word) :: ts')) :
    (leading settings hl hword ts ts').pairing.Paired c c' := by
  cases us with
  | nil => exact .inr ⟨m, hc, hc'⟩
  | cons u us =>
    obtain ⟨k, w⟩ := u
    obtain ⟨hw, hs, hb, hf, hk⟩ := hc
    obtain ⟨hw', hs', hb', hf', hk'⟩ := hc'
    refine .inl ⟨⟨w, hw, hw'⟩, hs, hs', [], _, _, rfl, rfl, c.reader.top, c'.reader.top, us, m, ?_⟩
    exact ⟨congrArg (List.cons _) hb, congrArg (List.cons _) hb', hf, hf', hk'.trans hk.symm⟩

end

/-! ## Included sources above -/

/-- The words of included sources, above a source that holds the words `ts` and has collected the
comments `k`. -/
inductive Frame.Piled (separator : Char) (lower : List Frame) (k : Option String)
    (ts : List (Option String × String)) : List String → List Frame → Prop where
  | base {f : Frame} : f.Holds separator ts → f.comments = k →
      Piled separator lower k ts [] (f :: lower)
  | above {f : Frame} {us : List (Option String × String)} {ws : List String}
      {stack : List Frame} : f.Holds separator us → Piled separator lower k ts ws stack →
      Piled separator lower k ts (us.map Prod.snd ++ ws) (f :: stack)

namespace Frame.Piled

section
variable {separator : Char} {lower : List Frame} {k : Option String}
  {ts : List (Option String × String)} {ws : List String} {stack : List Frame}

theorem exists_cons (h : Piled separator lower k ts ws stack) :
    ∃ f below, stack = f :: below := by
  cases h with
  | base _ _ => exact ⟨_, _, rfl⟩
  | above _ _ => exact ⟨_, _, rfl⟩

/-- The lowest of the sources counts as one above the next. -/
theorem lower_cons {f : Frame} {k' : Option String} {ts' : List (Option String × String)}
    (h : Piled separator (f :: lower) k ts ws stack) (hf : f.Holds separator ts')
    (hk : f.comments = k') : Piled separator lower k' ts' (ws ++ ts.map Prod.snd) stack := by
  induction h with
  | base hg _ =>
    have hbase : Piled separator lower k' ts' _ _ := above hg (base hf hk)
    rwa [List.append_nil] at hbase
  | above hg _ ih =>
    rw [List.append_assoc]
    exact above hg ih

theorem next_of_above {r : Reader} (h : Piled r.separator lower k ts ws r.stack) {w : String}
    {ws' : List String} (hws : ws = w :: ws') :
    ∃ r', r.next = .ok (some w) r' ∧ Piled r.separator lower k ts ws' r'.stack := by
  generalize hsep : r.separator = separator at h
  generalize hstack : r.stack = stack at h
  induction h generalizing r with
  | base _ _ => cases hws
  | @above f us ws stack hf hp ih =>
    subst hsep
    cases us with
    | nil =>
      obtain ⟨htop, hbelow⟩ := List.cons.inj hstack
      obtain ⟨f', hn⟩ := hf.next_nil
      obtain ⟨g, below, rfl⟩ := hp.exists_cons
      rw [Reader.next_of_pop (htop ▸ hn) hbelow]
      exact ih hws rfl rfl
    | cons u us =>
      obtain ⟨rfl, rfl⟩ : u.2 = w ∧ us.map Prod.snd ++ ws = ws' := List.cons.inj hws
      obtain ⟨f', r', hn, hs', hf', -⟩ := Reader.next_of_holds hstack hf
      exact ⟨r', hn, hs' ▸ above hf' hp⟩

theorem next_of_base {r : Reader} (h : Piled r.separator lower k ts ws r.stack) {m : Option String}
    {w : String} {ts' : List (Option String × String)} (hws : ws = []) (hts : ts = (m, w) :: ts') :
    ∃ f r', r.next = .ok (some w) r' ∧ r'.stack = f :: lower ∧ f.Holds r.separator ts' ∧
      f.comments = joinComments k m := by
  generalize hsep : r.separator = separator at h
  generalize hstack : r.stack = stack at h
  induction h generalizing r with
  | base hf hk =>
    subst hsep hts hk
    obtain ⟨f', r', hn, hs', hf', hc⟩ := Reader.next_of_holds hstack hf
    exact ⟨f', r', hn, hs', hf', hc⟩
  | @above f us ws stack hf hp ih =>
    subst hsep
    obtain ⟨hus, rfl⟩ := List.append_eq_nil_iff.1 hws
    rw [List.map_eq_nil_iff.1 hus] at hf
    obtain ⟨htop, hbelow⟩ := List.cons.inj hstack
    obtain ⟨f', hn⟩ := hf.next_nil
    obtain ⟨g, below, rfl⟩ := hp.exists_cons
    rw [Reader.next_of_pop (htop ▸ hn) hbelow]
    exact ih rfl rfl rfl

end

end Frame.Piled

namespace Cursor

section
variable {settings : Settings} {lower : List Frame} {k : Option String}
  {us ts : List (Option String × String)} {ws : List String} {c : Cursor}

/-- The comments that have been collected once the words have been read. -/
def collected (k : Option String) (us : List (Option String × String)) : Option String :=
  (us.map Prod.fst).foldl Frame.joinComments k

/-- Reading on in the innermost source. -/
theorem StandsOn.reads {w : String} (h : c.StandsOn settings lower ((k, w) :: (us ++ ts))) :
    ∃ d v, c.Reads (us.map Prod.snd) d ∧ d.StandsOn settings lower ((collected k us, v) :: ts) := by
  induction us generalizing c k w with
  | nil => exact ⟨c, w, .nil, h⟩
  | cons u us ih =>
    obtain ⟨-, hs, hb, hf, rfl⟩ := h
    obtain ⟨r, hn, hr⟩ := standsOn_of_next hs (congrArg (List.cons _) hb) hf
    obtain ⟨d, v, hreads, hd⟩ := ih hr
    exact ⟨d, v, .cons (advance_eq_ok.2 hn) rfl hreads, hd⟩

theorem reads_of_above (hs : c.reader.Follows settings)
    (h : Frame.Piled settings.pathSeparator lower k ts ws c.reader.stack) :
    ∃ d, c.Reads ws d ∧ d.reader.Follows settings ∧
      Frame.Piled settings.pathSeparator lower k ts [] d.reader.stack := by
  induction ws generalizing c with
  | nil => exact ⟨c, .nil, hs, h⟩
  | cons w ws ih =>
    rw [← hs.1] at h
    obtain ⟨r₁, hn, h₁⟩ := h.next_of_above rfl
    rw [hs.1] at h₁
    obtain ⟨d, hreads, hd⟩ := @ih ⟨r₁, some w⟩ (hs.next hn) h₁
    exact ⟨d, .cons (advance_eq_ok.2 hn) rfl hreads, hd⟩

/-- Reading the words of the included sources, and some below. -/
theorem reads_of_piled (hs : c.reader.Follows settings)
    (h : Frame.Piled settings.pathSeparator lower k (us ++ ts) ws c.reader.stack) (hus : us ≠ []) :
    ∃ d v, c.Reads (ws ++ us.map Prod.snd) d ∧
      d.StandsOn settings lower ((collected k us, v) :: ts) := by
  obtain ⟨⟨m, w⟩, us, rfl⟩ := List.exists_cons_of_ne_nil hus
  obtain ⟨c₁, hreads, hs₁, h₁⟩ := reads_of_above hs h
  rw [← hs₁.1] at h₁
  obtain ⟨f, r, hn, hstack, hf, hk⟩ := h₁.next_of_base rfl rfl
  rw [hs₁.1] at hf
  obtain ⟨rfl, hb⟩ := List.cons.inj hstack
  have hr : StandsOn settings lower ⟨r, some w⟩
      ((Frame.joinComments k m, w) :: (us ++ ts)) := ⟨rfl, hs₁.next hn, hb, hf, hk⟩
  obtain ⟨d, v, hreads', hd⟩ := hr.reads
  exact ⟨d, v, hreads.append (.cons (advance_eq_ok.2 hn) rfl hreads'), hd⟩

/-- Reading the words of the included sources, and some below, whether there are any or not. -/
theorem exists_reads_of_piled (hs : c.reader.Follows settings)
    (h : Frame.Piled settings.pathSeparator lower k (us ++ ts) ws c.reader.stack) :
    ∃ d, c.Reads (ws ++ us.map Prod.snd) d := by
  by_cases hus : us = []
  · obtain ⟨d, hreads, -⟩ := reads_of_above hs h
    exact ⟨d, by simpa [hus] using hreads⟩
  · obtain ⟨d, -, hreads, -⟩ := reads_of_piled hs h hus
    exact ⟨d, hreads⟩

end

end Cursor

/-! ## Runs -/

namespace Configuration

section
variable {ctx : Context} {settings : Settings}

/-- What a run comes to from a rule on. -/
def withRule (ctx : Context) (config : Configuration) :
    EStateM.Result ParseError Cursor KeepRule → Outcome
  | .ok rule c => run ctx (config.addRule rule) c
  | .error e c => (config, .error e c)

theorem run_of_keep {config : Configuration} {c : Cursor} {word keyword : String}
    {intent : KeepIntent} (hw : c.word = some word)
    (hl : Directive.lookup? word = some (keyword, .keep intent)) :
    run ctx config c = withRule ctx config
      (KeepRule.parser intent c.reader.top.comments (dispatched c keyword word)) := by
  rw [run_of_some hw, step_eq_of_lookup? hl, apply]
  cases KeepRule.parser intent c.reader.top.comments (dispatched c keyword word) <;> rfl

/-- The run comes to a keep rule, with the words ahead that follow its keyword: those of included
sources, then those of a source above the others. -/
def ComesToRule (ctx : Context) (settings : Settings) (lower : List Frame) (config : Configuration)
    (c : Cursor) (config₁ : Configuration) (intent : KeepIntent) (comments k : Option String)
    (ws : List String) (ts : List (Option String × String)) : Prop :=
  ∃ d : Cursor, d.reader.Follows settings ∧
    Frame.Piled settings.pathSeparator lower k ts ws d.reader.stack ∧
    run ctx config c = withRule ctx config₁ (KeepRule.parser intent comments d)

theorem comesToRule_of_keyword {lower : List Frame} (config : Configuration) {c : Cursor}
    {word keyword : String} {intent : KeepIntent} {k : Option String}
    {ts : List (Option String × String)} (hc : c.StandsOn settings lower ((k, word) :: ts))
    (hlook : Directive.lookup? word = some (keyword, .keep intent)) :
    ComesToRule ctx settings lower config c config intent k none [] ts := by
  obtain ⟨-, hs, hb, hf, -⟩ := hc.dispatched keyword word
  refine ⟨dispatched c keyword word, hs, ?_, ?_⟩
  · rw [Reader.stack, hb]
    exact .base hf rfl
  · rw [run_of_keep hc.1 hlook, hc.2.2.2.2]

/-- An include whose file has words comes to the first of them, unless includes are nested too
deep. -/
theorem run_of_inclusion {lower : List Frame} (config : Configuration) {c : Cursor}
    {word keyword file name : String} {source : Source} {lines : List String}
    {m m' : Option String} {t : Option String × String} {ts us : List (Option String × String)}
    (hc : c.StandsOn settings lower ((m, word) :: (m', file) :: ts))
    (hlook : Directive.lookup? word = some (keyword, .includeFile))
    (hfile : Directive.starts file = false) (hname : ctx.replace file = .ok name)
    (hsource : Source.ofFile ctx.host name = .ok source) (hfault : source.fault = none)
    (hlines : source.unread = lines.map some)
    (hwords : Word.marked none (lines.map (Word.ofLine settings.pathSeparator)) = t :: us) :
    (settings.maxIncludeDepth ≤ lower.length ∧ ∃ location d, run ctx config c =
        (config, .error (.rejected (.nestedTooDeep settings.maxIncludeDepth) location) d)) ∨
      lower.length < settings.maxIncludeDepth ∧ ∃ f d, f.Holds settings.pathSeparator ts ∧
        f.comments = m' ∧ d.StandsOn settings (f :: lower) (t :: us) ∧
        run ctx config c = run ctx config d := by
  obtain ⟨c₁, ha, hc₁⟩ := (hc.dispatched keyword word).advance
  have hnames : Names ctx (dispatched c keyword word) name c₁ :=
    ⟨file, readWord_eq_ok.2 ⟨ha, hc₁.1, hfile⟩, hname⟩
  have hdepth : c₁.reader.depth = lower.length := congrArg List.length hc₁.2.2.1
  have hinclude := includeFile_of_names hnames hsource
  rw [bind_apply] at hinclude
  rw [run_of_some hc.1, step_eq_of_lookup? hlook, apply]
  rcases tooDeep_or_entered hc₁.2.1 source with ⟨hd, location, d, he⟩ | ⟨c₂, he⟩
  · rw [he] at hinclude
    rw [hinclude]
    exact .inl ⟨hdepth ▸ hd, location, d, rfl⟩
  · have hholds : Frame.Holds settings.pathSeparator { source := source } (t :: us) :=
      ⟨hfault, lines, hlines, hwords.symm⟩
    obtain ⟨r, hn, hr⟩ := Cursor.standsOn_of_next he.follows he.stack hholds
    rw [Frame.none_joinComments, Reader.stack, hc₁.2.2.1] at hr
    rw [he.enter] at hinclude
    dsimp only at hinclude
    have hadvance : advance c₂ = .ok () ⟨r, some t.2⟩ := Cursor.advance_eq_ok.2 hn
    rw [hadvance] at hinclude
    rw [hinclude]
    exact .inr ⟨hdepth ▸ he.depth, c₁.reader.top, _, hc₁.2.2.2.1, hc₁.2.2.2.2, hr, rfl⟩

/-- Two readings of the same words come to the same directive. -/
theorem run_of_leading {lower lower' : List Frame} (hl : lower'.length = lower.length)
    {word : String} (hword : Directive.starts word = true) {m : Option String}
    {us ts ts' : List (Option String × String)} {c c' : Cursor}
    (hc : c.StandsOn settings lower (us ++ (m, word) :: ts))
    (hc' : c'.StandsOn settings lower' (us ++ (m, word) :: ts')) (config : Configuration) :
    unlocated (run ctx config c').ending = unlocated (run ctx config c).ending ∨
      ∃ config₁ k c₁ c₁', c₁.StandsOn settings lower ((k, word) :: ts) ∧
        c₁'.StandsOn settings lower' ((k, word) :: ts') ∧
        run ctx config c = run ctx config₁ c₁ ∧ run ctx config c' = run ctx config₁ c₁' := by
  have hsame : config.mapComments id = config.mapComments id := rfl
  rcases run_of_paired _ ctx (Cursor.paired_leading hl hword hc hc') hsame with
    (h | ⟨hf, -⟩) | ⟨config₁, config₁', c₁, c₁', ⟨k, h₁, h₁'⟩, hconfig, hrun, hrun'⟩
  · exact .inl h.unlocated
  · exact hf.elim
  · rw [mapComments_id, mapComments_id] at hconfig
    exact .inr ⟨config₁, k, c₁, c₁', h₁, h₁', hrun, hconfig ▸ hrun'⟩

theorem ComesToRule.of_run {lower : List Frame} {config config₁ config₂ : Configuration}
    {c c₁ : Cursor} {intent : KeepIntent} {comments k : Option String} {ws : List String}
    {ts : List (Option String × String)} (hrun : run ctx config c = run ctx config₁ c₁)
    (h : ComesToRule ctx settings lower config₁ c₁ config₂ intent comments k ws ts) :
    ComesToRule ctx settings lower config c config₂ intent comments k ws ts := by
  obtain ⟨d, hs, hp, hd⟩ := h
  exact ⟨d, hs, hp, hrun.trans hd⟩

theorem ComesToRule.lower_cons {f : Frame} {lower : List Frame} {config config₁ : Configuration}
    {c : Cursor} {intent : KeepIntent} {comments k k' : Option String} {ws : List String}
    {ts ts' : List (Option String × String)}
    (h : ComesToRule ctx settings (f :: lower) config c config₁ intent comments k ws ts)
    (hf : f.Holds settings.pathSeparator ts') (hk : f.comments = k') :
    ComesToRule ctx settings lower config c config₁ intent comments k' (ws ++ ts.map Prod.snd)
      ts' := by
  obtain ⟨d, hs, hp, hd⟩ := h
  exact ⟨d, hs, hp.lower_cons hf hk, hd⟩

/-- **Reading comes to the rule that is open**, whatever follows: two innermost sources with the
same words so far, above sources that may differ, are read alike, or both readings come to the rule
with the words after its keyword ahead. -/
theorem run_of_ruleOpen {before mid : List String} (h : RuleOpen ctx settings before mid)
    {lower lower' : List Frame} (hl : lower'.length = lower.length)
    {ts rest rest' : List (Option String × String)} (hts : ts.map Prod.snd = before)
    {c c' : Cursor} (hc : c.StandsOn settings lower (ts ++ rest))
    (hc' : c'.StandsOn settings lower' (ts ++ rest')) (config : Configuration) :
    unlocated (run ctx config c').ending = unlocated (run ctx config c).ending ∨
      ∃ config₁ intent comments k ws us, mid = ws ++ us.map Prod.snd ∧
        ComesToRule ctx settings lower config c config₁ intent comments k ws (us ++ rest) ∧
        ComesToRule ctx settings lower' config c' config₁ intent comments k ws (us ++ rest') := by
  induction h generalizing lower lower' ts rest rest' c c' config with
  | @keyword first mid word keyword intent hlook =>
    obtain ⟨us, _, rfl, -, htail⟩ := List.map_eq_append_iff.1 hts
    obtain ⟨⟨m, _⟩, us', rfl, rfl, rfl⟩ := List.map_eq_cons_iff.1 htail
    rw [List.append_assoc, List.cons_append] at hc hc'
    rcases run_of_leading hl (Directive.starts_of_lookup? hlook) hc hc' config with
      h | ⟨config₁, k, c₁, c₁', h₁, h₁', hrun, hrun'⟩
    · exact .inl h
    · refine .inr ⟨config₁, intent, k, none, [], us', rfl, ?_, ?_⟩
      · exact (comesToRule_of_keyword config₁ h₁ hlook).of_run hrun
      · exact (comesToRule_of_keyword config₁ h₁' hlook).of_run hrun'
  | @included first inner mid rest₀ word keyword file name source hlook hfile hname hsource hyields
      hopen ih =>
    obtain ⟨us, _, rfl, -, htail⟩ := List.map_eq_append_iff.1 hts
    obtain ⟨⟨m, _⟩, _, rfl, rfl, hfiles⟩ := List.map_eq_cons_iff.1 htail
    obtain ⟨⟨m', _⟩, us', rfl, rfl, rfl⟩ := List.map_eq_cons_iff.1 hfiles
    rw [List.append_assoc, List.cons_append, List.cons_append] at hc hc'
    rcases run_of_leading hl (Directive.starts_of_lookup? hlook) hc hc' config with
      h | ⟨config₁, k, c₁, c₁', h₁, h₁', hrun, hrun'⟩
    · exact .inl h
    obtain ⟨hfault, lines, hlines, rfl⟩ := hyields.lines
    have hinner := Word.map_snd_marked none (lines.map (Word.ofLine settings.pathSeparator))
    rw [List.flatMap_map] at hinner
    obtain ⟨t, ts, hwords⟩ : ∃ t ts,
        Word.marked none (lines.map (Word.ofLine settings.pathSeparator)) = t :: ts := by
      refine List.exists_cons_of_ne_nil fun he => hopen.ne_nil ?_
      rw [← hinner, he]
      rfl
    rw [hrun, hrun']
    rcases run_of_inclusion config₁ h₁ hlook hfile hname hsource hfault hlines hwords with
        ⟨hd, location, d, hdeep⟩ | ⟨hd, f, d, hf, hfk, hstands, hrun₁⟩ <;>
      rcases run_of_inclusion config₁ h₁' hlook hfile hname hsource hfault hlines hwords with
        ⟨hd', location', d', hdeep'⟩ | ⟨hd', f', d', hf', hfk', hstands', hrun₁'⟩
    · left
      rw [hdeep, hdeep']
      rfl
    · omega
    · omega
    · rw [hwords] at hinner
      rw [← List.append_nil (t :: ts)] at hstands hstands'
      have hl₁ : (f' :: lower').length = (f :: lower).length := congrArg Nat.succ hl
      rcases ih hl₁ hinner hstands hstands' config₁ with
        h | ⟨config₂, intent, comments, k', ws, us, rfl, h₂, h₂'⟩
      · exact .inl (hrun₁ ▸ hrun₁' ▸ h)
      · rw [List.append_nil] at h₂ h₂'
        refine .inr ⟨config₂, intent, comments, m', ws ++ us.map Prod.snd, us', rfl, ?_, ?_⟩
        · exact ((h₂.of_run hrun₁).of_run hrun).lower_cons hf hfk
        · exact ((h₂'.of_run hrun₁').of_run hrun').lower_cons hf' hfk'

end

end Configuration

end KeepRules
