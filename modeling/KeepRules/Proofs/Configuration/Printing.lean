import KeepRules.Configuration.Printer
import KeepRules.Proofs.Configuration.Segments
import KeepRules.Proofs.Configuration.WellFormed
import KeepRules.Proofs.Property

/-! # Configurations as they are written

`Configuration.Printable` says which configurations are read back from their text: in their class
paths (`PathsWritable`), in their options and rules (`OptionsWritable`), and in the comments of
their rules (`CommentsWritable`). Without the last, the carriage returns at the end of comment lines
are lost, and nothing else.

* `written_lines`: the lines of a configuration are read as directives that build it up.
* `ofSource_print_eq_chomped`: what is read of the text of a configuration.
* `ofSource_print`: a printable configuration is read back. -/

set_option autoImplicit false

namespace KeepRules

open Word (Spells IsSeparator)

/-! ## What can be written -/

namespace Word

/-- A plain word without references to properties. -/
structure IsLiteral (separator : Char) (word : String) : Prop extends IsPlain separator word where
  notReference : '<' ∉ word.toList

instance (separator : Char) (word : String) : Decidable (IsLiteral separator word) :=
  decidable_of_iff (IsPlain separator word ∧ '<' ∉ word.toList)
    ⟨fun h => ⟨h.1, h.2⟩, fun h => ⟨h.toIsPlain, h.notReference⟩⟩

end Word

/-- The name and the filters of the entry are literal words. -/
structure PathEntry.Writable (separator : Char) (e : PathEntry) : Prop where
  name : Word.IsLiteral separator e.name
  filter : ∀ filter, e.filter = some filter → ∃ fs : List String, fs ≠ [] ∧
    (∀ f ∈ fs, Word.IsLiteral separator f) ∧ filter = ",".intercalate fs

/-- An option with a plain argument or without one; a package by its internal name. -/
def TextOption.IsWritable (separator : Char) : TextOption → String → Prop
  | .defaultPackage, text =>
    text = "" ∨ ('.' ∉ text.toList ∧ Word.IsPlain separator (ClassName.toExternal text))
  | _, text => text = "" ∨ Word.IsPlain separator text

namespace Configuration

def PathsWritable (separator : Char) (c : Configuration) : Prop :=
  ∀ role path, c.path role = some path → path ≠ [] ∧ ∀ e ∈ path, e.Writable separator

structure OptionsWritable (separator : Char) (c : Configuration) : Prop where
  attributes : ∀ names, c.keepAttributes = some names →
    (∀ n ∈ names, Word.IsPlain separator n) ∧ names.head? ≠ some "*"
  texts : ∀ (o : TextOption) (t : String), c.text o = some t → o.IsWritable separator t
  keep : ∀ r ∈ c.keep, r.Printable

def CommentsWritable (c : Configuration) : Prop := ∀ r ∈ c.keep, r.CommentsWritable

/-- What a configuration needs for being read back from its text. -/
structure Printable (separator : Char) (c : Configuration) : Prop where
  paths : c.PathsWritable separator
  options : c.OptionsWritable separator
  comments : c.CommentsWritable

/-- What is left of a configuration when its text is read. -/
def chomped (c : Configuration) : Configuration := { c with keep := c.keep.map KeepRule.chomped }

theorem chomped_eq_self {c : Configuration} : c.chomped = c ↔ c.CommentsWritable := by
  have hmap : c.chomped = c ↔ c.keep.map KeepRule.chomped = c.keep := by
    cases c
    simp [chomped]
  rw [hmap]
  constructor
  · intro h r hr
    exact KeepRule.chomped_eq_self.1 (List.map_inj_left.1 (h.trans (List.map_id _).symm) r hr)
  · intro h
    have hid : ∀ r ∈ c.keep, r.chomped = id r := fun r hr => KeepRule.chomped_eq_self.2 (h r hr)
    rw [List.map_inj_left.2 hid, List.map_id]

end Configuration

/-! ## Class paths -/

theorem Context.replace_of_notMem {ctx : Context} {word : String} (h : '<' ∉ word.toList) :
    ctx.replace word = .ok word := by
  rw [replace, Properties.replace, Properties.replaceFrom_zero, Properties.expand_of_notMem h]
  exact congrArg Except.ok String.ofList_toList

/-- An entry with filters is written as a phrase with a parenthesis at its end. -/
theorem PathEntry.spells_filtered {separator : Char} {name : String} {fs : List String}
    (hn : Word.IsWord separator name) (hfs : ∀ f ∈ fs, Word.IsWord separator f) :
    Spells separator (PathEntry.print ⟨name, some (",".intercalate fs)⟩)
      (EntryPhrase.words ⟨name, some (fs, ")")⟩) := by
  have hopen := (Spells.word hn).delimiter (s := "(") (d := '(') rfl
    (by simp [Word.isDelimiter, Word.delimiters]) (by decide) (by decide) (Spells.commas hfs)
  have hclose := hopen.delimiter (s := ")") (d := ')') rfl
    (by simp [Word.isDelimiter, Word.delimiters]) (by decide) (by decide) .empty
  rw [String.append_empty] at hclose
  exact hclose

theorem PathEntry.Writable.phrase {separator : Char} {e : PathEntry} (h : e.Writable separator)
    (ctx : Context) :
    ∃ p : EntryPhrase, p.Valid ∧ p.Says ctx e ∧ Spells separator e.print p.words := by
  have hname : ctx.replace e.name = .ok e.name := Context.replace_of_notMem h.name.notReference
  obtain ⟨name, filter⟩ := e
  cases filter with
  | none =>
    exact ⟨⟨name, none⟩, ⟨h.name.notStart, trivial⟩, ⟨hname, rfl⟩, .word h.name.toIsWord⟩
  | some filter =>
    obtain ⟨fs, hne, hfs, rfl⟩ := h.filter filter rfl
    have hrep : EntryPhrase.Replaces ctx fs fs :=
      List.map_inj_left.2 fun f hf => Context.replace_of_notMem (hfs f hf).notReference
    refine ⟨⟨name, some (fs, ")")⟩, ⟨h.name.notStart, hne, fun f hf => (hfs f hf).notStart,
      by decide, by decide⟩, ⟨hname, fs, hrep, rfl⟩, ?_⟩
    exact PathEntry.spells_filtered h.name.toIsWord fun f hf => (hfs f hf).toIsWord

/-- The entries between separators. -/
def ClassPath.print (separator : Char) (path : ClassPath) : String :=
  separator.toString.intercalate (path.map PathEntry.print)

theorem ClassPath.print_cons_cons (separator : Char) (e e' : PathEntry) (path : ClassPath) :
    print separator (e :: e' :: path) =
      e.print ++ separator.toString ++ print separator (e' :: path) := by
  simp [print, String.intercalate_cons_cons]

/-- A separator stands between entries as a word of its own. -/
theorem Word.Spells.entries {separator : Char} (hs : IsSeparator separator) {a b : String}
    {u v : List String} (ha : Spells separator a u) (hb : Spells separator b v) :
    Spells separator (a ++ separator.toString ++ b) (u ++ separator.toString :: v) := by
  have hsep : Text.isBlank separator = false ∧ separator ≠ '#' := by
    rcases hs with rfl | rfl <;> decide
  exact ha.delimiter rfl (by simp [Word.isDelimiter]) hsep.1 hsep.2 hb

theorem ClassPath.phrases_of_writable {separator : Char} (hs : IsSeparator separator)
    (ctx : Context) {path : ClassPath} (hne : path ≠ []) (h : ∀ e ∈ path, e.Writable separator) :
    ∃ es, ValidPhrases separator es ∧ Say ctx es path ∧
      Spells separator (print separator path) (phraseWords separator es) := by
  induction path with
  | nil => exact absurd rfl hne
  | cons e path ih =>
    obtain ⟨p, hv, hsays, hp⟩ := (h e List.mem_cons_self).phrase ctx
    cases path with
    | nil =>
      refine ⟨[p], hv, ⟨e, [], hsays, rfl, rfl⟩, ?_⟩
      simpa [phraseWords, print] using hp
    | cons e' path =>
      obtain ⟨es, hves, hsay, hes⟩ := ih (by simp) fun d hd => h d (List.mem_cons_of_mem _ hd)
      cases es with
      | nil => exact hves.elim
      | cons p' es =>
        have hsep : Directive.starts separator.toString = false ∧ separator.toString ≠ "(" := by
          rcases hs with rfl | rfl <;> decide
        refine ⟨p :: p' :: es, ⟨hv, hsep.1, fun _ => hsep.2, hves⟩,
          ⟨e, e' :: path, hsays, hsay, rfl⟩, ?_⟩
        rw [phraseWords_cons_cons, print_cons_cons]
        exact hp.entries hs hes

/-! ## Directives -/

namespace TextOption

theorem value_of_ne {o : TextOption} (h : o ≠ .defaultPackage) (argument : String) :
    o.value argument = argument := if_neg h

/-- What is written after the keyword of an option. -/
theorem IsWritable.argument {separator : Char} {o : TextOption} {t : String}
    (h : o.IsWritable separator t) :
    ∃ a, o.value a = t ∧ (a = "" ∨ Word.IsPlain separator a) ∧
      Configuration.textLine o t = if a = "" then o.keyword else o.keyword ++ " " ++ a := by
  have hline : ∀ o : TextOption, o ≠ .defaultPackage → ∀ a, Configuration.textLine o a =
      if a = "" then o.keyword else o.keyword ++ " " ++ a := by
    intro o ho a
    simp only [Configuration.textLine, if_neg ho]
  cases o with
  | defaultPackage =>
    refine ⟨ClassName.toExternal t, ?_, ?_, rfl⟩
    · rcases h with rfl | ⟨hd, -⟩
      · decide
      · exact ClassName.toInternal_toExternal hd
    · rcases h with rfl | ⟨-, hp⟩
      · exact .inl (by decide)
      · exact .inr hp
  | renameSourceFileAttribute => exact ⟨t, value_of_ne (by decide) t, h, hline _ (by decide) t⟩
  | printSeeds => exact ⟨t, value_of_ne (by decide) t, h, hline _ (by decide) t⟩
  | printUsage => exact ⟨t, value_of_ne (by decide) t, h, hline _ (by decide) t⟩
  | printMapping => exact ⟨t, value_of_ne (by decide) t, h, hline _ (by decide) t⟩
  | applyMapping => exact ⟨t, value_of_ne (by decide) t, h, hline _ (by decide) t⟩
  | dump => exact ⟨t, value_of_ne (by decide) t, h, hline _ (by decide) t⟩

end TextOption

namespace Configuration

section
variable {separator : Char} (hs : IsSeparator separator) {ctx : Context}
include hs

theorem spells_keyword {keyword : String} (hne : keyword ≠ "")
    (h : keyword.toList.all Word.isKeywordChar = true) : Spells separator keyword [keyword] :=
  .word (Word.isWord_of_keywordChars hs hne h)

theorem spells_role (role : PathRole) : Spells separator role.keyword [role.keyword] :=
  spells_keyword hs (by cases role <;> decide) (by cases role <;> decide)

theorem written_path {role : PathRole} {path : ClassPath} {config : Configuration}
    (hne : path ≠ []) (h : ∀ e ∈ path, e.Writable separator) (hc : config.path role = none) :
    Written separator ctx [pathLine separator role path] config
      (config.setPath role (some path)) := by
  obtain ⟨es, hv, hsay, hes⟩ := ClassPath.phrases_of_writable hs ctx hne h
  obtain ⟨hstarts, hlookup⟩ := Directive.lookup?_ofPath role
  refine .line ((spells_role hs role).space hes)
    ⟨hstarts, .classPath role, hlookup, fun c c' hsep hp hend => ?_⟩
  have hparse : ClassPath.parser ctx ((config.path role).getD []) c = .ok path c' :=
    ClassPath.parser_iff.2 ⟨es, path, hsep ▸ hv, hsay, hsep ▸ hp, hend, by rw [hc]; rfl⟩
  simp only [apply, hparse, settle]

theorem written_attributes {names : List String} {config : Configuration}
    (h : (∀ n ∈ names, Word.IsPlain separator n) ∧ names.head? ≠ some "*")
    (hc : config.keepAttributes = none) :
    Written separator ctx [attributesLine names] config
      { config with keepAttributes := some names } := by
  have hkey : Spells separator Directive.attributesKeyword [Directive.attributesKeyword] :=
    spells_keyword hs (by decide) (by decide)
  have hmem : (Directive.attributesKeyword, .keepAttributes) ∈ Directive.table := by
    simp [Directive.table]
  obtain ⟨hstarts, hlookup⟩ := Directive.lookup?_of_mem_table _ hmem
  cases names with
  | nil =>
    have hstar : Spells separator "*" ["*"] := spells_keyword hs (by decide) (by decide)
    have hline := hkey.space hstar
    rw [String.append_assoc] at hline
    refine .line hline ⟨hstarts, .keepAttributes, hlookup, fun c c' _ hp _ => ?_⟩
    have hparse : Parser.attributes (config.keepAttributes.getD []) c = .ok [] c' :=
      Parser.attributes_iff.2 (.inr (.inl ⟨hp, rfl⟩))
    simp only [apply, hparse, settle]
  | cons n ns =>
    have hline := hkey.space (Spells.commas fun m hm => (h.1 m hm).toIsWord)
    refine .line hline ⟨hstarts, .keepAttributes, hlookup, fun c c' _ hp hend => ?_⟩
    have hne : n ≠ "*" := by simpa using h.2
    have hparse : Parser.attributes (config.keepAttributes.getD []) c = .ok (n :: ns) c' :=
      Parser.attributes_iff.2 (.inr (.inr ⟨n, ns, fun m hm => (h.1 m hm).notStart, hne, hp, hend,
        by rw [hc]; rfl⟩))
    simp only [apply, hparse, settle]

theorem written_text {o : TextOption} {t : String} {config : Configuration}
    (h : o.IsWritable separator t) :
    Written separator ctx [textLine o t] config (config.setText o (some t)) := by
  obtain ⟨a, hvalue, ha, hline⟩ := h.argument
  have hkey : Spells separator o.keyword [o.keyword] :=
    spells_keyword hs (by cases o <;> decide) (by cases o <;> decide)
  have hmem : Directive.ofText o ∈ Directive.table := by
    cases o <;> simp [Directive.table]
  obtain ⟨hstarts, hlookup⟩ := Directive.lookup?_of_mem_table _ hmem
  rw [hline]
  by_cases he : a = ""
  · rw [if_pos he]
    refine .line hkey ⟨hstarts, .text o, hlookup, fun c c' _ hp hend => ?_⟩
    have hparse : Parser.argument c = .ok a c' := Parser.argument_iff.2 (.inl ⟨hp, hend, he⟩)
    simp only [apply, hparse, settle, hvalue]
  · rw [if_neg he]
    have hplain := ha.resolve_left he
    refine .line (hkey.space (.word hplain.toIsWord)) ⟨hstarts, .text o, hlookup,
      fun c c' _ hp _ => ?_⟩
    have hparse : Parser.argument c = .ok a c' :=
      Parser.argument_iff.2 (.inr ⟨hp, hplain.notStart⟩)
    simp only [apply, hparse, settle, hvalue]

theorem written_switch {s : Switch} {config : Configuration} :
    Written separator ctx [s.keyword] config (config.setSwitch s s.thrown) := by
  have hmem : Directive.ofSwitch s ∈ Directive.table := by
    cases s <;> simp [Directive.table]
  obtain ⟨hstarts, hlookup⟩ := Directive.lookup?_of_mem_table _ hmem
  refine .line (spells_keyword hs (by cases s <;> decide) (by cases s <;> decide))
    ⟨hstarts, .switch s, hlookup, fun c c' _ hp _ => ?_⟩
  have hparse : Parser.advance c = .ok () c' := Cursor.Passes.nil_iff.1 hp
  simp only [apply, hparse, settle]

theorem written_rule {r : KeepRule} {config : Configuration} (h : r.Printable) :
    Written separator ctx r.lines config (config.addRule r.chomped) := by
  have hmem : Directive.ofIntent r.intent ∈ Directive.table := by
    have hi := h.intent
    simp only [KeepIntent.all, List.mem_cons, List.not_mem_nil, or_false] at hi
    rcases hi with hi | hi | hi | hi | hi | hi <;> simp [hi, Directive.table]
  obtain ⟨hstarts, hlookup⟩ := Directive.lookup?_of_mem_table _ hmem
  refine ⟨KeepRule.oneLine_of_lines hs h, [⟨r.chomped.comments, r.intent.keyword, r.phrase.words⟩],
    .cons ⟨hstarts, .keep r.intent, hlookup, fun c c' _ hp hend => ?_⟩ .nil, fun rest => ?_⟩
  · have hparse : KeepRule.parser r.intent r.chomped.comments c = .ok r.chomped c' :=
      KeepRule.parser_iff.2 ⟨r.phrase, KeepRule.phrase_valid hs h, hp, fun _ => hend,
        (KeepRule.rule_phrase hs h _).symm⟩
    simp only [apply, hparse, settle]
  · have := KeepRule.marked_lines hs h rest
    simpa [Segment.tokens] using this

omit hs

/-! ## Whole configurations -/

/-- The lines of a class path each, in the order of the roles. -/
def pathLines (separator : Char) (c : Configuration) (roles : List PathRole) : List String :=
  roles.filterMap fun role => (c.path role).map (pathLine separator role)

/-- The lines after those of the class paths. -/
def optionLines (c : Configuration) : List String :=
  (c.keepAttributes.map attributesLine).toList ++
    TextOption.all.filterMap (fun option => (c.text option).map (textLine option)) ++
    (Switch.all.filter fun s => c.switch s == s.thrown).map Switch.keyword ++
    c.keep.flatMap KeepRule.lines

theorem lines_eq_append (c : Configuration) :
    c.lines separator = c.pathLines separator PathRole.all ++ c.optionLines := by
  simp only [lines, pathLines, optionLines, List.append_assoc]

/-- Fields of one kind are written one after the other, each from the value it has at first. -/
theorem written_fold {ι α : Type} (get : Configuration → ι → α)
    (set : Configuration → ι → α → Configuration) (initial target : ι → α)
    (line? : ι → Option String)
    (hset : ∀ k k' config a, k ≠ k' → get (set config k a) k' = get config k')
    (hstep : ∀ k config, get config k = initial k →
      Written separator ctx (line? k).toList config (set config k (target k)))
    {keys : List ι} (hkeys : keys.Nodup) {config : Configuration}
    (h : ∀ k ∈ keys, get config k = initial k) :
    Written separator ctx (keys.filterMap line?) config
      (keys.foldl (fun config k => set config k (target k)) config) := by
  induction keys generalizing config with
  | nil => exact .nil
  | cons k keys ih =>
    obtain ⟨hk, hkeys⟩ := List.nodup_cons.1 hkeys
    have hfirst := hstep k config (h k List.mem_cons_self)
    have hrest := @ih hkeys (set config k (target k)) fun k' hk' => by
      rw [hset k k' config (target k) fun he => hk (he ▸ hk')]
      exact h k' (List.mem_cons_of_mem _ hk')
    have := hfirst.append hrest
    cases hl : line? k with
    | none => simpa [hl] using this
    | some line => simpa [hl] using this

include hs

theorem written_paths {c config : Configuration} (h : c.PathsWritable separator)
    (hc : ∀ role, config.path role = none) :
    Written separator ctx (c.pathLines separator PathRole.all) config
      (PathRole.all.foldl (fun config role => config.setPath role (c.path role)) config) := by
  refine written_fold path setPath (fun _ => none) c.path _ (fun k k' config a hne => ?_)
    (fun role config hrole => ?_) (by decide) fun role _ => hc role
  · rw [path_setPath, if_neg hne]
  · cases hp : c.path role with
    | none =>
      have hsame : config.setPath role none = config := by
        rw [← hrole]
        cases role <;> rfl
      rw [hsame]
      exact .nil
    | some path => exact written_path hs (h role path hp).1 (h role path hp).2 hrole

theorem written_texts {c config : Configuration}
    (h : ∀ (o : TextOption) (t : String), c.text o = some t → o.IsWritable separator t)
    (hc : ∀ o, config.text o = none) :
    Written separator ctx
      (TextOption.all.filterMap fun o => (c.text o).map (textLine o)) config
      (TextOption.all.foldl (fun config o => config.setText o (c.text o)) config) := by
  refine written_fold text setText (fun _ => none) c.text _ (fun k k' config a hne => ?_)
    (fun o config ho => ?_) (by decide) fun o _ => hc o
  · rw [text_setText, if_neg hne]
  · cases ht : c.text o with
    | none =>
      have hsame : config.setText o none = config := by
        rw [← ho]
        cases o <;> rfl
      rw [hsame]
      exact .nil
    | some t => exact written_text hs (h o t ht)

theorem written_switches {c config : Configuration}
    (hc : ∀ s, config.switch s = !s.thrown) :
    Written separator ctx ((Switch.all.filter fun s => c.switch s == s.thrown).map Switch.keyword)
      config (Switch.all.foldl (fun config s => config.setSwitch s (c.switch s)) config) := by
  have hlines : (Switch.all.filter fun s => c.switch s == s.thrown).map Switch.keyword =
      Switch.all.filterMap fun s =>
        if c.switch s == s.thrown then some s.keyword else none := by
    rw [← List.filterMap_eq_map, List.filterMap_filter]
    rfl
  rw [hlines]
  refine written_fold switch setSwitch (fun s => !s.thrown) c.switch _
    (fun k k' config a hne => ?_) (fun s config hs' => ?_) (by decide) fun s _ => hc s
  · rw [switch_setSwitch, if_neg hne]
  · by_cases ht : c.switch s = s.thrown
    · rw [if_pos (beq_iff_eq.2 ht), ht]
      exact written_switch hs
    · have hsame : config.setSwitch s (c.switch s) = config := by
        have hval : c.switch s = config.switch s := by
          rw [hs']
          cases hs₁ : c.switch s <;> cases hs₂ : s.thrown <;> simp_all
        rw [hval]
        cases s <;> rfl
      rw [if_neg (by simpa using ht), hsame]
      exact .nil

theorem written_rules {rules : List KeepRule} {config : Configuration}
    (h : ∀ r ∈ rules, r.Printable) :
    Written separator ctx (rules.flatMap KeepRule.lines) config
      { config with keep := config.keep ++ rules.map KeepRule.chomped } := by
  induction rules generalizing config with
  | nil =>
    rw [List.map_nil, List.append_nil]
    exact .nil
  | cons r rules ih =>
    have hfirst : Written separator ctx r.lines config (config.addRule r.chomped) :=
      written_rule hs (h r List.mem_cons_self)
    have hrest := @ih (config.addRule r.chomped) fun r' hr' => h r' (List.mem_cons_of_mem _ hr')
    have := hfirst.append hrest
    simpa [addRule] using this

/-- The configuration with the class paths of another, and nothing else. -/
def onlyPaths (c : Configuration) : Configuration where
  inJars := c.inJars
  outJars := c.outJars
  libraryJars := c.libraryJars
  resourceJars := c.resourceJars

omit hs in
theorem foldl_paths (c : Configuration) :
    PathRole.all.foldl (fun config role => config.setPath role (c.path role)) {} = c.onlyPaths :=
  rfl

omit hs in
/-- The options of one configuration in another, field by field. -/
theorem foldl_options (c : Configuration) :
    Switch.all.foldl (fun config s => config.setSwitch s (c.switch s))
      (TextOption.all.foldl (fun config o => config.setText o (c.text o))
        { c.onlyPaths with keepAttributes := c.keepAttributes }) =
    { c with keep := [] } := by
  simp only [Switch.all, TextOption.all, List.foldl_cons, List.foldl_nil, setSwitch, setText,
    switch, text, onlyPaths]

theorem written_attributes? {c config : Configuration} (ho : c.OptionsWritable separator)
    (hc : config.keepAttributes = none) :
    Written separator ctx (c.keepAttributes.map attributesLine).toList config
      { config with keepAttributes := c.keepAttributes } := by
  cases hn : c.keepAttributes with
  | none =>
    have hsame : { config with keepAttributes := none } = config := by rw [← hc]
    rw [hsame]
    exact .nil
  | some names => exact written_attributes hs (ho.attributes names hn) hc

theorem written_optionLines {c : Configuration} (ho : c.OptionsWritable separator) :
    Written separator ctx c.optionLines c.onlyPaths c.chomped := by
  have hattributes : Written separator ctx (c.keepAttributes.map attributesLine).toList
      c.onlyPaths { c.onlyPaths with keepAttributes := c.keepAttributes } :=
    written_attributes? hs ho rfl
  have htexts := @written_texts separator hs ctx c
    { c.onlyPaths with keepAttributes := c.keepAttributes } ho.texts fun o => by cases o <;> rfl
  have hswitches := @written_switches separator hs ctx c
    (TextOption.all.foldl (fun config o => config.setText o (c.text o))
      { c.onlyPaths with keepAttributes := c.keepAttributes }) fun s => by cases s <;> rfl
  rw [foldl_options] at hswitches
  have hrules := @written_rules separator hs ctx c.keep { c with keep := [] } ho.keep
  exact ((hattributes.append htexts).append hswitches).append hrules

/-- The lines of a configuration are read as directives that build it up from nothing. -/
theorem written_lines {c : Configuration} (hp : c.PathsWritable separator)
    (ho : c.OptionsWritable separator) :
    Written separator ctx (c.lines separator) {} c.chomped := by
  have hpaths := @written_paths separator hs ctx c {} hp fun role => by cases role <;> rfl
  rw [foldl_paths] at hpaths
  rw [lines_eq_append]
  exact hpaths.append (written_optionLines hs ho)

/-- What is read of the text of a configuration. -/
theorem ofSource_print_eq_chomped {settings : Settings} (hsep : settings.pathSeparator = separator)
    {c : Configuration} (hp : c.PathsWritable separator) (ho : c.OptionsWritable separator)
    (name : String) :
    ofSource ctx settings (.ofText name (c.print separator)) = .ok c.chomped := by
  subst hsep
  exact (written_lines hs hp ho).ofSource name

end

/-- **A printable configuration is read back from its text**, whatever the properties and the files
of the machine are. -/
theorem ofSource_print {ctx : Context} {settings : Settings} {c : Configuration} {name : String}
    (hs : IsSeparator settings.pathSeparator) (h : c.Printable settings.pathSeparator) :
    ofSource ctx settings (.ofText name (c.print settings.pathSeparator)) = .ok c := by
  rw [ofSource_print_eq_chomped hs rfl h.paths h.options name]
  exact congrArg Except.ok (chomped_eq_self.2 h.comments)

/-- One class path with filters, and one rule with comments and a field. -/
def smallConfiguration : Configuration where
  inJars := some [{ name := "in.jar", filter := some "*.a" }]
  keep :=
    [{ className := some "a/B"
       intent := .keep
       comments := some " kept\n for later"
       fields := [{ access := {}, name := some "n", descriptor := some "I" }] }]

theorem printable_smallConfiguration : smallConfiguration.Printable ':' := by
  refine ⟨fun role path hp => ?_, ⟨nofun, ?_, ?_⟩, ?_⟩
  · cases role <;> cases hp
    refine ⟨by simp, fun e he => ?_⟩
    obtain rfl := List.mem_singleton.1 he
    refine ⟨by decide, ?_⟩
    rintro filter ⟨⟩
    refine ⟨["*.a"], by simp, fun f hf => ?_, rfl⟩
    obtain rfl := List.mem_singleton.1 hf
    decide
  · intro o t ht
    cases o <;> cases ht
  · intro r hr
    obtain rfl := List.mem_singleton.1 hr
    refine ⟨by decide, ⟨by decide, by decide⟩, ?_, by decide, nofun, nofun, fun m hm => ?_, nofun⟩
    · rintro name ⟨⟩
      exact ⟨by decide, by decide⟩
    · obtain rfl := List.mem_singleton.1 hm
      have htype : MemberForm.IsType "int" := ⟨by decide, by decide, by decide⟩
      exact ⟨⟨by decide, by decide⟩,
        .inr ⟨"n", "I", rfl, rfl, by decide, "int", by decide, htype, by decide⟩⟩
  · intro r hr
    obtain rfl := List.mem_singleton.1 hr
    rintro s ⟨⟩
    decide

theorem ofSource_print_small :
    ofSource bareContext {} (.ofText "small.pro" (smallConfiguration.print ':')) =
      .ok smallConfiguration :=
  ofSource_print (.inl rfl) printable_smallConfiguration

end Configuration

end KeepRules
