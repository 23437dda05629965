import KeepRules.Proofs.Configuration.Directives

/-! # What runs do to configurations

`Effect` lists what a directive that succeeds can do, and `Loss` what one that fails can; both keep
the words that were read, so that every invariant of configurations can be derived from them.

* `effect_of_step`, `loss_of_step`: one directive.
* `run_induction`: what holds of single directives carries over to runs.
* `changes_of_run`: a run is a sequence of effects, and if it fails, one loss after them. -/

set_option autoImplicit false

namespace KeepRules.Configuration

open KeepRules.Parser

/-- What a directive can do to a configuration. -/
inductive Effect (separator : Char) (ctx : Context) (config : Configuration) :
    Configuration → Prop where
  | inclusion : Effect separator ctx config config
  | classPath {role : PathRole} {es : List EntryPhrase} {entries : ClassPath} :
      ClassPath.ValidPhrases separator es → ClassPath.Say ctx es entries →
      (∀ w ∈ ClassPath.phraseWords separator es, Word.IsWord separator w) →
      Effect separator ctx config
        (config.setPath role (some ((config.path role).getD [] ++ entries)))
  | keep {p : RulePhrase} {intent : KeepIntent} {comments : Option String} :
      p.Valid → (∀ w ∈ p.words, Word.IsWord separator w) → intent ∈ KeepIntent.all →
      Effect separator ctx config (config.addRule (p.rule intent comments))
  | allAttributes : Effect separator ctx config { config with keepAttributes := some [] }
  | attributes {n : String} {ns : List String} :
      n ≠ "*" → (∀ m ∈ n :: ns, Word.IsPlain separator m) →
      Effect separator ctx config
        { config with keepAttributes := some (config.keepAttributes.getD [] ++ n :: ns) }
  | text {o : TextOption} {w : String} :
      w = "" ∨ Word.IsPlain separator w →
      Effect separator ctx config (config.setText o (some (o.value w)))
  | switch {s : Switch} : Effect separator ctx config (config.setSwitch s s.thrown)

/-- What a directive that fails can do. -/
inductive Loss (config : Configuration) : Configuration → Prop where
  | nothing : Loss config config
  | classPath {role : PathRole} : Loss config (config.setPath role none)
  | attributes : Loss config { config with keepAttributes := none }

/-- What directives can do, one after the other. -/
inductive Changes (separator : Char) (ctx : Context) : Configuration → Configuration → Prop where
  | refl {config : Configuration} : Changes separator ctx config config
  | step {config config₁ config' : Configuration} :
      Effect separator ctx config config₁ → Changes separator ctx config₁ config' →
      Changes separator ctx config config'

/-- What every directive keeps, any number of them keep. -/
theorem Changes.keeps {separator : Char} {ctx : Context} {P : Configuration → Prop}
    (hstep : ∀ {a b : Configuration}, Effect separator ctx a b → P a → P b)
    {config config' : Configuration} (h : Changes separator ctx config config')
    (hP : P config) : P config' := by
  induction h with
  | refl => exact hP
  | step he _ ih => exact ih (hstep he hP)

/-! ## One directive -/

theorem settle_eq_ok {α : Type} {r : EStateM.Result ParseError Cursor α}
    {done : α → Configuration} {failed config' : Configuration} {c : Cursor}
    (h : settle r done failed = (config', .ok () c)) : ∃ a, r = .ok a c ∧ config' = done a := by
  cases r with
  | ok a c₁ => cases h; exact ⟨a, rfl, rfl⟩
  | error e c₁ => cases h

theorem settle_eq_error {α : Type} {r : EStateM.Result ParseError Cursor α}
    {done : α → Configuration} {failed config' : Configuration} {e : ParseError} {c : Cursor}
    (h : settle r done failed = (config', .error e c)) : config' = failed := by
  cases r with
  | ok a c₁ => cases h
  | error e c₁ => cases h; rfl

/-- Directives can express only some of the intents. -/
def expressible : Directive → Bool
  | .keep intent => intent ∈ KeepIntent.all
  | _ => true

theorem mem_table_of_lookup? {word : String} {e : String × Directive}
    (h : Directive.lookup? word = some e) : e ∈ Directive.table := by
  unfold Directive.lookup? at h
  split at h
  · cases h
  · exact List.mem_of_find?_eq_some h

theorem expressible_of_lookup? {word keyword : String} {d : Directive}
    (h : Directive.lookup? word = some (keyword, d)) : expressible d = true := by
  have hall : ∀ e ∈ Directive.table, expressible e.2 = true := by decide
  exact hall _ (mem_table_of_lookup? h)

theorem effect_of_apply {ctx : Context} {comments : Option String} {config config' : Configuration}
    {d : Directive} {c c' : Cursor} (hc : c.Lexical) (hd : expressible d = true)
    (h : apply ctx comments config d c = (config', .ok () c')) :
    Effect c.reader.separator ctx config config' ∧ c'.Lexical ∧
      c'.reader.separator = c.reader.separator := by
  -- each directive but the include passes words, and these are proper ones
  have passed : ∀ {ws : List String}, c.Passes ws c' →
      (∀ w ∈ ws, Word.IsWord c.reader.separator w) ∧ c'.Lexical ∧
        c'.reader.separator = c.reader.separator :=
    fun hp => ⟨(hp.lexical hc).2, (hp.lexical hc).1, hp.separator⟩
  cases d with
  | includeFile =>
    obtain ⟨u, hr, rfl⟩ := settle_eq_ok h
    exact ⟨.inclusion, lexical_of_includeFile hc hr, separator_of_includeFile hr⟩
  | classPath role =>
    obtain ⟨p, hr, rfl⟩ := settle_eq_ok h
    obtain ⟨es, entries, hv, hs, hp, -, rfl⟩ := ClassPath.parser_iff.1 hr
    obtain ⟨hws, hl⟩ := passed hp
    exact ⟨.classPath hv hs hws, hl⟩
  | keep intent =>
    obtain ⟨rule, hr, rfl⟩ := settle_eq_ok h
    obtain ⟨p, hv, hp, -, rfl⟩ := KeepRule.parser_iff.1 hr
    obtain ⟨hws, hl⟩ := passed hp
    exact ⟨.keep hv hws (by simpa [expressible] using hd), hl⟩
  | keepAttributes =>
    obtain ⟨names, hr, rfl⟩ := settle_eq_ok h
    rcases attributes_iff.1 hr with ⟨hp, -, rfl⟩ | ⟨hp, rfl⟩ | ⟨n, ns, hns, hne, hp, -, rfl⟩
    · exact ⟨.allAttributes, (passed hp).2⟩
    · exact ⟨.allAttributes, (passed hp).2⟩
    · obtain ⟨hws, hl⟩ := passed hp
      refine ⟨.attributes hne fun m hm => ⟨hws m ?_, hns m hm⟩, hl⟩
      exact Word.mem_intersperse hm
  | text o =>
    obtain ⟨w, hr, rfl⟩ := settle_eq_ok h
    rcases argument_iff.1 hr with ⟨hp, -, rfl⟩ | ⟨hp, hw⟩
    · exact ⟨.text (.inl rfl), (passed hp).2⟩
    · obtain ⟨hws, hl⟩ := passed hp
      exact ⟨.text (.inr ⟨hws w List.mem_cons_self, hw⟩), hl⟩
  | switch s =>
    obtain ⟨u, hr, rfl⟩ := settle_eq_ok h
    exact ⟨.switch, (passed (Cursor.Passes.nil_iff.2 hr)).2⟩

theorem loss_of_apply {ctx : Context} {comments : Option String} {config config' : Configuration}
    {d : Directive} {e : ParseError} {c c' : Cursor}
    (h : apply ctx comments config d c = (config', .error e c')) : Loss config config' := by
  cases d with
  | classPath role => exact settle_eq_error h ▸ .classPath
  | keepAttributes => exact settle_eq_error h ▸ .attributes
  | includeFile => exact settle_eq_error h ▸ .nothing
  | keep intent => exact settle_eq_error h ▸ .nothing
  | text o => exact settle_eq_error h ▸ .nothing
  | switch s => exact settle_eq_error h ▸ .nothing

/-- The cursor at which a directive is applied: the comments are taken and the keyword recorded. -/
def dispatched (c : Cursor) (keyword word : String) : Cursor :=
  { c with reader := (c.reader.takeComments.2).record (.dispatching keyword word) }

theorem step_eq_of_lookup? {ctx : Context} {config : Configuration} {word keyword : String}
    {d : Directive} {c : Cursor} (h : Directive.lookup? word = some (keyword, d)) :
    step ctx config word c =
      apply ctx c.reader.top.comments config d (dispatched c keyword word) := by
  simp only [step, h]
  rfl

theorem lexical_dispatched {c : Cursor} (hc : c.Lexical) (keyword word : String) :
    (dispatched c keyword word).Lexical := by
  refine ⟨hc.word, fun f hf => ?_⟩
  rcases List.mem_cons.1 hf with rfl | hf
  · exact hc.reader c.reader.top List.mem_cons_self
  · exact hc.reader f (List.mem_cons_of_mem _ hf)

theorem effect_of_step {ctx : Context} {config config' : Configuration} {word : String}
    {c c' : Cursor} (hc : c.Lexical) (h : step ctx config word c = (config', .ok () c')) :
    Effect c.reader.separator ctx config config' ∧ c'.Lexical ∧
      c'.reader.separator = c.reader.separator := by
  cases hl : Directive.lookup? word with
  | none =>
    simp only [step, hl] at h
    cases h
  | some p =>
    obtain ⟨keyword, d⟩ := p
    rw [step_eq_of_lookup? hl] at h
    have hc' := lexical_dispatched hc keyword word
    exact effect_of_apply (c := dispatched c keyword word) hc' (expressible_of_lookup? hl) h

theorem loss_of_step {ctx : Context} {config config' : Configuration} {word : String}
    {e : ParseError} {c c' : Cursor} (h : step ctx config word c = (config', .error e c')) :
    Loss config config' := by
  cases hl : Directive.lookup? word with
  | none =>
    simp only [step, hl] at h
    cases h
    exact .nothing
  | some p =>
    obtain ⟨keyword, d⟩ := p
    rw [step_eq_of_lookup? hl] at h
    exact loss_of_apply h

/-! ## Runs -/

/-- What holds at the end of a run and is kept by adding a directive in front holds of runs. -/
theorem run_induction {ctx : Context} {P : Configuration → Cursor → Outcome → Prop}
    (done : ∀ {config c c'}, c.word = none → P config c (config, .ok () c'))
    (failed : ∀ {config c word config' e c'}, c.word = some word →
      step ctx config word c = (config', .error e c') → P config c (config', .error e c'))
    (again : ∀ {config c word config' c' r}, c.word = some word →
      step ctx config word c = (config', .ok () c') → P config' c' r → P config c r)
    (config : Configuration) (c : Cursor) : P config c (run ctx config c) := by
  fun_induction run ctx config c with
  | case1 config c hw => exact done hw
  | case2 config c word hw config' e c' hs => exact failed hw hs
  | case3 config c word hw config' c' hs ih => exact again hw hs ih

theorem changes_of_run {ctx : Context} {config : Configuration} {c : Cursor} (hc : c.Lexical) :
    ∃ config', Changes c.reader.separator ctx config config' ∧
      ((run ctx config c).1 = config' ∨
        ((∃ e c', (run ctx config c).2 = .error e c') ∧ Loss config' (run ctx config c).1)) := by
  refine run_induction (P := fun config c r => c.Lexical → ∃ config',
    Changes c.reader.separator ctx config config' ∧
    (r.1 = config' ∨ ((∃ e c', r.2 = .error e c') ∧ Loss config' r.1))) ?_ ?_ ?_ config c hc
  · intro config c c' _ _
    exact ⟨config, .refl, .inl rfl⟩
  · intro config c word config' e c' _ hs _
    exact ⟨config, .refl, .inr ⟨⟨e, c', rfl⟩, loss_of_step hs⟩⟩
  · intro config c word config₁ c₁ r _ hs ih hc
    obtain ⟨he, hc₁, hsep⟩ := effect_of_step hc hs
    obtain ⟨config', hch, hr⟩ := ih hc₁
    rw [hsep] at hch
    exact ⟨config', .step he hch, hr⟩

/-- The cursor at the start of a source has read only proper words. -/
theorem lexical_of_ofReader {source : Source} {settings : Settings} {c : Cursor}
    (h : Cursor.ofReader (.ofSource source settings) = .ok c) :
    c.Lexical ∧ c.reader.separator = settings.pathSeparator := by
  unfold Cursor.ofReader at h
  split at h
  · next word r hn =>
    cases h
    have hl : (Reader.ofSource source settings).Lexical := by
      intro f hf w hw
      obtain rfl := List.mem_singleton.1 hf
      cases hw
    obtain ⟨hr, hw⟩ := hl.next hn
    have hsep : r.separator = settings.pathSeparator := Reader.separator_of_next hn
    refine ⟨⟨fun w h' => ?_, hr⟩, hsep⟩
    rw [show ({ reader := r, word := word } : Cursor).reader.separator = _ from hsep]
    exact hw w h'
  · cases h

end KeepRules.Configuration
