import KeepRules.Configuration.RoundTrip
import KeepRules.Proofs.Configuration.Rereading

/-! # Which configurations survive a round trip

Options and rules that are read can always be written. Class paths cannot: the value of a property
need not be a word. Nor can comments, which lose a carriage return at the end of a line each time
that they are read.

* `OptionsWritable.effect`: every directive leaves options and rules writable.
* `pathsLiteral_of_ofSource`: no references are left if no property has one in its value.
* `roundTrip_stable_iff`: the configurations that are read back from their text. -/

set_option autoImplicit false

namespace KeepRules

open Word (IsSeparator)

/-! ## Options that are read -/

namespace ClassName

theorem toExternal_toInternal_eq (name : String) :
    toExternal (toInternal name) = toExternal name := by
  rw [toExternal, toInternal, toExternal, String.toList_ofList, externalChars, internalChars,
    externalChars, List.map_map]
  congr 1
  refine List.map_inj_left.2 fun c _ => ?_
  by_cases hc : c = '.' <;> simp [hc]

theorem head?_of_externalChars {name : List Char} {c : Char} (hc : c ≠ '.')
    (h : (externalChars name).head? = some c) : name.head? = some c := by
  cases name with
  | nil => cases h
  | cons d name =>
    rw [externalChars, List.map_cons, List.head?_cons, Option.some.injEq] at h
    by_cases hd : d = '/'
    · rw [if_pos hd] at h
      exact absurd h.symm hc
    · rw [if_neg hd] at h
      rw [List.head?_cons, h]

theorem starts_toExternal {w : String} (h : Directive.starts w = false) :
    Directive.starts (toExternal w) = false := by
  have hl := toList_toExternal w
  simp only [Directive.starts, Bool.or_eq_false_iff, beq_eq_false_iff_ne] at h ⊢
  refine ⟨fun hd => h.1 (head?_of_externalChars (by decide) (hl ▸ hd)), fun ha => h.2 ?_⟩
  -- a name of one character, which is not a slash
  have hchars : externalChars w.toList = ['@'] := by
    rw [← hl, ha]
    rfl
  have hlen : w.toList.length = 1 := by
    rw [← List.length_map, show w.toList.map _ = ['@'] from hchars]
    rfl
  obtain ⟨c, hw⟩ := List.length_eq_one_iff.1 hlen
  have hhead : w.toList.head? = some '@' := head?_of_externalChars (by decide) (by rw [hchars]; rfl)
  rw [← String.toList_inj, hw]
  rw [hw, List.head?_cons, Option.some.injEq] at hhead
  rw [hhead]
  rfl

/-- A plain word stays one when its slashes become dots. -/
theorem isPlain_toExternal {separator : Char} (hs : IsSeparator separator) {w : String}
    (h : Word.IsPlain separator w) : Word.IsPlain separator (toExternal w) := by
  have hl := toList_toExternal w
  have hslash : Word.isDelimiter separator '/' = false := by rcases hs with rfl | rfl <;> decide
  have hdot : Word.isDelimiter separator '.' = false := by rcases hs with rfl | rfl <;> decide
  have hchar : ∀ c ∈ (toExternal w).toList, c = '.' ∨ c ∈ w.toList := by
    intro c hc
    rw [hl] at hc
    obtain ⟨d, hd, rfl⟩ := List.mem_map.1 hc
    by_cases hd' : d = '/'
    · exact .inl (if_pos hd')
    · exact .inr (by rw [if_neg hd']; exact hd)
  refine ⟨⟨?_, ?_, ?_, ?_⟩, ?_⟩
  · intro he
    rw [he] at hl
    have hnil : w.toList = [] := List.map_eq_nil_iff.1 hl.symm
    exact h.ne_empty (String.toList_inj.1 hnil)
  · intro c hc
    rcases hchar c hc with rfl | hc
    · decide
    · exact h.notBlank c hc
  · intro hc
    rcases hchar _ hc with hc | hc
    · cases hc
    · exact h.notComment hc
  · rcases h.delimited with ⟨c, hc, hw⟩ | hw
    · have hne : c ≠ '/' := by
        rintro rfl
        rw [hslash] at hc
        cases hc
      exact .inl ⟨c, hc, by rw [hl, hw, externalChars, List.map_singleton, if_neg hne]⟩
    · right
      intro c hc
      rcases hchar c hc with rfl | hc
      · exact hdot
      · exact hw c hc
  · exact starts_toExternal h.notStart

end ClassName

theorem TextOption.isWritable_value {separator : Char} (hs : IsSeparator separator)
    {o : TextOption} {w : String} (h : w = "" ∨ Word.IsPlain separator w) :
    o.IsWritable separator (o.value w) := by
  cases o with
  | defaultPackage =>
    rcases h with rfl | h
    · exact .inl (by decide)
    · refine .inr ⟨?_, ?_⟩
      · rw [TextOption.value, if_pos rfl]
        exact ClassName.dot_notMem_toInternal w
      · rw [TextOption.value, if_pos rfl, ClassName.toExternal_toInternal_eq]
        exact ClassName.isPlain_toExternal hs h
  | renameSourceFileAttribute => rw [TextOption.value_of_ne (by decide)]; exact h
  | printSeeds => rw [TextOption.value_of_ne (by decide)]; exact h
  | printUsage => rw [TextOption.value_of_ne (by decide)]; exact h
  | printMapping => rw [TextOption.value_of_ne (by decide)]; exact h
  | applyMapping => rw [TextOption.value_of_ne (by decide)]; exact h
  | dump => rw [TextOption.value_of_ne (by decide)]; exact h

namespace Configuration

theorem optionsWritable_default {separator : Char} :
    ({} : Configuration).OptionsWritable separator where
  attributes := nofun
  texts o t ht := by cases o <;> cases ht
  keep := nofun

theorem OptionsWritable.setAttributes {separator : Char} {c : Configuration}
    (h : c.OptionsWritable separator) {names : List String}
    (hn : (∀ n ∈ names, Word.IsPlain separator n) ∧ names.head? ≠ some "*") :
    ({ c with keepAttributes := some names } : Configuration).OptionsWritable separator where
  attributes names' hn' := by
    cases hn'
    exact hn
  texts o t ht := by
    have htext := h.texts o t
    cases o <;> exact htext ht
  keep := h.keep

/-- Every directive leaves options and rules that can be written. -/
theorem OptionsWritable.effect {separator : Char} (hs : IsSeparator separator) {ctx : Context}
    {c c' : Configuration} (h : c.OptionsWritable separator) (he : Effect separator ctx c c') :
    c'.OptionsWritable separator := by
  cases he with
  | inclusion => exact h
  | classPath =>
    refine ⟨?_, ?_, ?_⟩
    · rw [keepAttributes_setPath]
      exact h.attributes
    · intro o t
      rw [text_setPath]
      exact h.texts o t
    · rw [keep_setPath]
      exact h.keep
  | @keep p intent comments hv hw hi =>
    refine ⟨h.attributes, fun o t ht => ?_, fun r hr => ?_⟩
    · have htext := h.texts o t
      cases o <;> exact htext ht
    · rcases List.mem_append.1 hr with hr | hr
      · exact h.keep r hr
      · rw [List.mem_singleton.1 hr]
        exact RulePhrase.printable hv hw hi
  | allAttributes => exact h.setAttributes ⟨nofun, nofun⟩
  | @attributes n ns hne hplain =>
    refine h.setAttributes ?_
    cases hk : c.keepAttributes with
    | none => exact ⟨hplain, by simpa using hne⟩
    | some names =>
      obtain ⟨hnames, hhead⟩ := h.attributes names hk
      refine ⟨fun m hm => ?_, ?_⟩
      · rcases List.mem_append.1 hm with hm | hm
        · exact hnames m hm
        · exact hplain m hm
      · cases names with
        | nil => simpa using hne
        | cons m names => simpa using hhead
  | @text o w hw =>
    refine ⟨?_, fun q t ht => ?_, ?_⟩
    · rw [keepAttributes_setText]
      exact h.attributes
    · rw [text_setText] at ht
      split at ht
      · next hq =>
        subst hq
        cases ht
        exact TextOption.isWritable_value hs hw
      · exact h.texts q t ht
    · rw [keep_setText]
      exact h.keep
  | switch =>
    refine ⟨?_, ?_, ?_⟩
    · rw [keepAttributes_setSwitch]
      exact h.attributes
    · intro o t
      rw [text_setSwitch]
      exact h.texts o t
    · rw [keep_setSwitch]
      exact h.keep

/-- What is read is reached from nothing by the effects of directives. -/
theorem changes_of_ofSource {ctx : Context} {settings : Settings} {source : Source}
    {c : Configuration} (h : ofSource ctx settings source = .ok c) :
    Changes settings.pathSeparator ctx {} c := by
  cases hc : Cursor.ofReader (.ofSource source settings) with
  | error e =>
    rw [ofSource, hc] at h
    cases h
  | ok cursor =>
    obtain ⟨c', hrun⟩ := (ofSource_of_run hc).1 h
    obtain ⟨hlex, hsep⟩ := lexical_of_ofReader hc
    obtain ⟨config, hch, hr⟩ := @changes_of_run ctx {} cursor hlex
    rw [hrun] at hr
    rcases hr with rfl | ⟨⟨e, c₁, he⟩, -⟩
    · exact hsep ▸ hch
    · cases he

theorem optionsWritable_of_ofSource {ctx : Context} {settings : Settings} {source : Source}
    {c : Configuration} (hs : IsSeparator settings.pathSeparator)
    (h : ofSource ctx settings source = .ok c) : c.OptionsWritable settings.pathSeparator :=
  (changes_of_ofSource h).keeps (fun he ha => ha.effect hs he) optionsWritable_default

end Configuration

/-! ## References that are left -/

/-- No property has a reference in its value. -/
def Context.Literal (ctx : Context) : Prop :=
  ∀ name value, ctx.properties.get? ctx.host.environment name = some value → '<' ∉ value.toList

theorem Properties.notMem_of_expand {value? : String → Option String}
    (hv : ∀ name value, value? name = some value → '<' ∉ value.toList) {word text : List Char}
    (h : expand value? word = .ok text) : '<' ∉ text := by
  fun_induction expand value? word generalizing text with
  | case1 =>
    cases h
    simp
  | case2 => cases h
  | case3 => cases h
  | case4 rest name after hcut value hval ih =>
    cases ha : expand value? after with
    | error e =>
      rw [ha] at h
      cases h
    | ok text' =>
      rw [ha] at h
      cases h
      simp [hv _ _ hval, ih ha]
  | case5 c rest hc ih =>
    cases hr : expand value? rest with
    | error e =>
      rw [hr] at h
      cases h
    | ok text' =>
      rw [hr] at h
      cases h
      simp [Ne.symm hc, ih hr]

theorem Context.Literal.replace {ctx : Context} (hl : ctx.Literal) {word text : String}
    (h : ctx.replace word = .ok text) : '<' ∉ text.toList := by
  unfold Context.replace Properties.replace at h
  rw [Properties.replaceFrom_zero] at h
  cases he : Properties.expand (ctx.properties.get? ctx.host.environment) word.toList with
  | error e =>
    rw [he] at h
    cases h
  | ok chars =>
    rw [he] at h
    cases h
    rw [String.toList_ofList]
    exact Properties.notMem_of_expand hl he

theorem PathEntry.notMem_print {e : PathEntry} {c : Char} (hc : c ∉ ['(', ')'])
    (hn : c ∉ e.name.toList) (hf : ∀ filter, e.filter = some filter → c ∉ filter.toList) :
    c ∉ e.print.toList := by
  obtain ⟨name, filter⟩ := e
  cases filter with
  | none => exact hn
  | some filter =>
    have hfilter := hf filter rfl
    simp only [List.mem_cons, List.not_mem_nil, or_false, not_or] at hc
    show c ∉ (name ++ "(" ++ filter ++ ")").toList
    simp [hn, hfilter, hc]

theorem EntryPhrase.Says.notMem {ctx : Context} (hl : ctx.Literal) {p : EntryPhrase}
    {e : PathEntry} (h : p.Says ctx e) : '<' ∉ e.print.toList := by
  refine PathEntry.notMem_print (by decide) (hl.replace h.name) fun filter hf => ?_
  obtain ⟨word, filters⟩ := p
  have hsays := h.filter
  rw [hf] at hsays
  cases filters with
  | none => cases hsays
  | some q =>
    obtain ⟨texts, hrep, heq⟩ := hsays
    obtain rfl := Option.some.inj heq
    refine Text.notMem_intercalate (by decide) fun t ht => ?_
    have hm : Except.ok t ∈ q.1.map ctx.replace := by
      rw [show q.1.map ctx.replace = texts.map .ok from hrep]
      exact List.mem_map_of_mem ht
    obtain ⟨w, -, hw⟩ := List.mem_map.1 hm
    exact hl.replace hw

theorem PathEntry.Writable.notMem {separator : Char} {e : PathEntry} (h : e.Writable separator) :
    '<' ∉ e.print.toList := by
  refine PathEntry.notMem_print (by decide) h.name.notReference fun filter hf => ?_
  obtain ⟨fs, -, hfs, rfl⟩ := h.filter filter hf
  exact Text.notMem_intercalate (by decide) fun f hf => (hfs f hf).notReference

namespace Configuration

theorem notMem_of_say {ctx : Context} (hl : ctx.Literal) {es : List EntryPhrase}
    {path : ClassPath} (h : ClassPath.Say ctx es path) : ∀ e ∈ path, '<' ∉ e.print.toList := by
  induction es generalizing path with
  | nil =>
    obtain rfl : path = [] := h
    nofun
  | cons p es ih =>
    obtain ⟨e, rest, hsays, hrest, rfl⟩ := h
    intro d hd
    rcases List.mem_cons.1 hd with rfl | hd
    · exact hsays.notMem hl
    · exact ih hrest d hd

theorem PathsLiteral.effect {separator : Char} {ctx : Context} (hl : ctx.Literal)
    {c c' : Configuration} (h : c.PathsLiteral) (he : Effect separator ctx c c') :
    c'.PathsLiteral := by
  intro role path hp
  have hold := h role
  cases he with
  | inclusion => exact hold path hp
  | @classPath role' es entries _ hsay _ =>
    rw [path_setPath] at hp
    by_cases hr : role' = role
    · rw [if_pos hr] at hp
      cases hp
      intro e he
      rcases List.mem_append.1 he with he | he
      · cases hc : c.path role' with
        | none =>
          rw [hc] at he
          cases he
        | some before =>
          rw [hc] at he
          exact h role' before hc e he
      · exact notMem_of_say hl hsay e he
    · rw [if_neg hr] at hp
      exact hold path hp
  | keep => cases role <;> exact hold path hp
  | allAttributes => cases role <;> exact hold path hp
  | attributes => cases role <;> exact hold path hp
  | text =>
    rw [path_setText] at hp
    exact hold path hp
  | switch =>
    rw [path_setSwitch] at hp
    exact hold path hp

theorem pathsLiteral_of_ofSource {ctx : Context} (hl : ctx.Literal) {settings : Settings}
    {source : Source} {c : Configuration} (h : ofSource ctx settings source = .ok c) :
    c.PathsLiteral := by
  have hdefault : ({} : Configuration).PathsLiteral := by
    intro role path hp
    cases role <;> cases hp
  exact (changes_of_ofSource h).keeps (fun he ha => ha.effect hl he) hdefault

/-! ## Round trips -/

/-- The text of the configuration is read back on the machine, and a round trip leaves it alone. -/
def ReadBack (host : Host) (settings : Settings) (c : Configuration) : Prop :=
  (∀ name, ofText host settings name (c.print settings.pathSeparator) = .ok c) ∧
    roundTrip host settings (c.print settings.pathSeparator) =
      .ok (c.print settings.pathSeparator)

theorem roundTrip_eq_ok {host : Host} {settings : Settings} {text printed : String} :
    roundTrip host settings text = .ok printed ↔
      ∃ c, ofText host settings "round trip" text = .ok c ∧
        printed = c.print settings.pathSeparator := by
  unfold roundTrip
  cases hc : ofText host settings "round trip" text with
  | error e =>
    constructor
    · intro h
      cases h
    · rintro ⟨c, h, -⟩
      cases h
  | ok c =>
    constructor
    · intro h
      cases h
      exact ⟨c, rfl, rfl⟩
    · rintro ⟨c', h, rfl⟩
      cases h
      rfl

theorem readBack_of_writable {host : Host} {settings : Settings} {c : Configuration}
    (hs : IsSeparator settings.pathSeparator) (ho : c.OptionsWritable settings.pathSeparator)
    (hp : c.PathsWritable settings.pathSeparator) (hc : c.CommentsWritable) :
    c.ReadBack host settings := by
  have hread : ∀ name, ofText host settings name (c.print settings.pathSeparator) = .ok c := by
    intro name
    rw [ofText, ofSource_print_eq_chomped hs rfl hp ho, chomped_eq_self.2 hc]
  exact ⟨hread, roundTrip_eq_ok.2 ⟨c, hread _, rfl⟩⟩

theorem writable_of_readBack {host : Host} {settings : Settings} {c : Configuration}
    (hs : IsSeparator settings.pathSeparator) (ho : c.OptionsWritable settings.pathSeparator)
    (hl : c.PathsLiteral) (h : c.ReadBack host settings) :
    c.PathsWritable settings.pathSeparator ∧ c.CommentsWritable := by
  have hread := h.1 "round trip"
  have hp := pathsWritable_of_ofSource hs ho hl hread
  rw [ofText, ofSource_print_eq_chomped hs rfl hp ho] at hread
  exact ⟨hp, chomped_eq_self.1 (Except.ok.inj hread)⟩

/-- A machine without variables has no references in the values of its properties. -/
theorem literal_bareContext {settings : Settings} (hs : IsSeparator settings.pathSeparator) :
    (Context.ofSettings bareContext.host settings).Literal := by
  have henv : ∀ name, bareContext.host.environment.get? name = none := by
    intro name
    simp [bareContext, Environment.get?]
  have hentries : (Context.ofSettings bareContext.host settings).properties.entries =
      [("path.separator", settings.pathSeparator.toString), ("path.separator", ":"),
       ("file.separator", "/"), ("user.dir", "/")] := by
    unfold Context.ofSettings Properties.system
    rw [henv, henv]
    rfl
  have hsep : '<' ∉ settings.pathSeparator.toString.toList := by
    rcases hs with h | h <;> rw [h] <;> decide
  intro name value h
  unfold Properties.get? at h
  rw [show (Context.ofSettings bareContext.host settings).host = bareContext.host from rfl, henv,
    ite_self, Option.or_none, hentries] at h
  obtain ⟨l, k, hl, -⟩ := List.lookup_eq_some_iff.1 h
  have hmem : (name, value) ∈ l ++ (name, value) :: k := by simp
  rw [← hl] at hmem
  simp only [List.mem_cons, Prod.mk.injEq, List.not_mem_nil, or_false] at hmem
  rcases hmem with ⟨-, rfl⟩ | ⟨-, rfl⟩ | ⟨-, rfl⟩ | ⟨-, rfl⟩
  · exact hsep
  · decide
  · decide
  · decide

/-- **When the text of a configuration that was read is read back.** On every machine, exactly if
its class paths are written in literal words and no line of its comments ends in a carriage return;
on a single machine likewise, if no references are left in the class paths. -/
theorem roundTrip_stable_iff {host : Host} {settings : Settings} {text printed : String}
    (hs : IsSeparator settings.pathSeparator)
    (h : roundTrip host settings text = .ok printed) :
    ∃ c, ofText host settings "round trip" text = .ok c ∧
      printed = c.print settings.pathSeparator ∧
      (c.PathsLiteral ∧ c.ReadBack host settings ↔
        c.PathsWritable settings.pathSeparator ∧ c.CommentsWritable) ∧
      ((∀ machine, c.ReadBack machine settings) ↔
        c.PathsWritable settings.pathSeparator ∧ c.CommentsWritable) := by
  obtain ⟨c, hc, hprinted⟩ := roundTrip_eq_ok.1 h
  have ho := optionsWritable_of_ofSource hs hc
  refine ⟨c, hc, hprinted, ⟨?_, ?_⟩, ?_, ?_⟩
  · rintro ⟨hl, hback⟩
    exact writable_of_readBack hs ho hl hback
  · rintro ⟨hp, hcomments⟩
    exact ⟨fun role path hpath e he => ((hp role path hpath).2 e he).notMem,
      readBack_of_writable hs ho hp hcomments⟩
  · intro hback
    have hbare := hback bareContext.host
    have hl := pathsLiteral_of_ofSource (literal_bareContext hs) (hbare.1 "round trip")
    exact writable_of_readBack hs ho hl hbare
  · rintro ⟨hp, hcomments⟩ machine
    exact readBack_of_writable hs ho hp hcomments

theorem roundTrip_stable_small :
    roundTrip bareContext.host {} (smallConfiguration.print ':') =
        .ok (smallConfiguration.print ':') ∧
      smallConfiguration.ReadBack bareContext.host {} := by
  have hp := printable_smallConfiguration
  have hback := @readBack_of_writable bareContext.host {} _ (.inl rfl) hp.options hp.paths
    hp.comments
  obtain ⟨c, hc, -, hiff, -⟩ := roundTrip_stable_iff (.inl rfl) hback.2
  obtain rfl : smallConfiguration = c := Except.ok.inj ((hback.1 "round trip").symm.trans hc)
  exact ⟨hback.2, (hiff.2 ⟨hp.paths, hp.comments⟩).2⟩

/-- One rule with the comments. -/
def commented (comments : String) : Configuration where
  keep := [{ className := some "a", intent := .keep, comments := some comments }]

theorem roundTrip_commented (comments : String) :
    roundTrip bareContext.host {} ((commented comments).print ':') =
      .ok ((commented comments).chomped.print ':') := by
  have hp : (commented comments).PathsWritable ':' := by
    intro role path hpath
    cases role <;> cases hpath
  have ho : (commented comments).OptionsWritable ':' := by
    refine ⟨nofun, fun o t ht => ?_, fun r hr => ?_⟩
    · cases o <;> cases ht
    · have hbare : KeepRule.Printable { className := some "a", intent := .keep } := by
        refine ⟨by decide, ⟨by decide, by decide⟩, ?_, by decide, nofun, nofun, nofun, nofun⟩
        rintro name ⟨⟩
        exact ⟨by decide, by decide⟩
      obtain rfl := List.mem_singleton.1 hr
      exact ⟨hbare.intent, hbare.access, hbare.className, hbare.notAny, nofun, nofun, nofun, nofun⟩
  refine roundTrip_eq_ok.2 ⟨(commented comments).chomped, ?_, rfl⟩
  exact ofSource_print_eq_chomped (.inl rfl) rfl hp ho _

/-- Two carriage returns at the end of a comment are lost one after the other, in two round
trips. -/
theorem roundTrip_loses_return :
    ∃ printed, roundTrip bareContext.host {} "#x\r\r\n-keep class a\n" = .ok printed ∧
      roundTrip bareContext.host {} printed = .ok "#x\n-keep class a\n" ∧
      "#x\n-keep class a\n" ≠ printed :=
  ⟨"#x\r\n-keep class a\n", roundTrip_commented "x\r\r", roundTrip_commented "x\r", by decide⟩

end Configuration

end KeepRules
