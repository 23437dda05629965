import KeepRules.Proofs.Configuration.OpenRules
import KeepRules.Proofs.Rule.Modifiers

/-! # The order of modifiers

The modifiers in front of a class or a member may be written in any order, and any of them more than
once.

* `Gathers`: a run comes to where a rule collects modifiers, with the words ahead that follow
  (`run_of_place`). What it does from there on depends on what the modifiers ask for
  (`Gathers.run`).
* `run_of_sameModifiers`: two readings that differ in a run of modifiers only end in the same way,
  if the same modifiers occur in both, or both find a conflict.
* `readInto_reordered`: a text, the same text with a run of modifiers in another order, and with
  modifiers repeated. -/

set_option autoImplicit false

namespace KeepRules

open KeepRules.Parser

/-- From a cursor, the same words lead to the same cursor. -/
theorem Cursor.Reads.unique {c d d' : Cursor} {ws : List String} (h : c.Reads ws d)
    (h' : c.Reads ws d') : d' = d := by
  induction h with
  | nil => exact nil_iff.1 h'
  | cons ha _ _ ih =>
    cases h' with
    | cons ha' _ h' =>
      rw [ha] at ha'
      cases ha'
      exact ih h'

namespace Configuration

section
variable {ctx : Context} {settings : Settings}

/-- Rules that are read alike, and that do not end where a directive could start. -/
theorem withRule_of_astray {r r' : EStateM.Result ParseError Cursor KeepRule}
    (h : Agree (fun _ => Cursor.Astray) r r') (config : Configuration) :
    unlocated (withRule ctx config r').ending = unlocated (withRule ctx config r).ending := by
  cases h with
  | @ok rule c c' hw =>
    obtain ⟨w, hw, hw', hs⟩ := hw
    have hnone : Directive.lookup? w = none := by
      by_contra hne
      obtain ⟨e, he⟩ := Option.ne_none_iff_exists'.1 hne
      rw [Directive.starts_of_lookup? he] at hs
      cases hs
    simp only [withRule, run_of_some hw, run_of_some hw', step, hnone]
    rfl
  | error he => exact Prod.ext rfl (congrArg Except.error he.symm)

/-- Rules that are read alike, up to where the sources have the same words ahead. -/
theorem withRule_of_resumed {r r' : EStateM.Result ParseError Cursor KeepRule}
    (h : Agree (fun _ => (resumed settings).pairing.Paired) r r') (config : Configuration) :
    unlocated (withRule ctx config r').ending = unlocated (withRule ctx config r).ending := by
  cases h with
  | ok h => exact run_of_paired_resumed h
  | error he => exact Prod.ext rfl (congrArg Except.error he.symm)

/-! ## Where modifiers are collected -/

/-- The run comes to where a rule collects modifiers: `marks` first, and then what the words in
`rest` ask for. The comments before them are `k`. -/
def Gathers (ctx : Context) (settings : Settings) (config : Configuration) (c : Cursor)
    (rest : List (Option String × String)) (config₁ : Configuration)
    (q : Access → Parser KeepRule) (marks : List Mark) (k : Option String) : Prop :=
  ∃ b, run ctx config c = withRule ctx config₁ (q {} b) ∧
    ∀ us ts, us ≠ [] → rest = us ++ ts →
      ∃ d v, b.Reads (marks.map Mark.word ++ us.map Prod.snd) d ∧
        d.StandsOn settings [] ((Cursor.collected k us, v) :: ts)

theorem gathers_of_piled {config config₁ : Configuration} {c d h b : Cursor} {intent : KeepIntent}
    {comments k : Option String} {ws : List String} {us rest : List (Option String × String)}
    {q : Access → Parser KeepRule} {marks : List Mark} (hs : d.reader.Follows settings)
    (hp : Frame.Piled settings.pathSeparator [] k (us ++ rest) ws d.reader.stack)
    (hrun : run ctx config c = withRule ctx config₁ (KeepRule.parser intent comments d))
    (hh : d.Reads (ws ++ us.map Prod.snd) h) (hb : b.Reads (marks.map Mark.word) h)
    (hq : KeepRule.parser intent comments d = q {} b) :
    Gathers ctx settings config c rest config₁ q marks (Cursor.collected k us) := by
  refine ⟨b, hq ▸ hrun, fun vs ts hvs hrest => ?_⟩
  rw [hrest, ← List.append_assoc] at hp
  obtain ⟨g, v, hreads, hg⟩ :=
    Cursor.reads_of_piled hs hp (List.append_ne_nil_of_right_ne_nil us hvs)
  rw [List.map_append, ← List.append_assoc] at hreads
  obtain ⟨h₁, hh₁, hreads⟩ := hreads.of_append
  rw [hh.unique hh₁] at hreads
  rw [Cursor.collected, List.map_append, List.foldl_append] at hg
  exact ⟨g, v, hb.append hreads, hg⟩

/-- **Two texts with the same words so far**, where modifiers of a keep rule can follow, are read
alike, or both readings come to collect the modifiers. -/
theorem run_of_place {before mid : List String} {vocabulary : ModifierSet}
    (hopen : RuleOpen ctx settings before mid) (hplace : ModifierPlace mid vocabulary)
    {ts rest rest' : List (Option String × String)} (hts : ts.map Prod.snd = before) {c c' : Cursor}
    (hc : c.StandsOn settings [] (ts ++ rest)) (hc' : c'.StandsOn settings [] (ts ++ rest'))
    (config : Configuration) :
    unlocated (run ctx config c').ending = unlocated (run ctx config c).ending ∨
      ∃ config₁ q marks k, Collects vocabulary q ∧ (∀ m ∈ marks, m.modifier ∈ vocabulary) ∧
        Gathers ctx settings config c rest config₁ q marks k ∧
        Gathers ctx settings config c' rest' config₁ q marks k := by
  rcases run_of_ruleOpen hopen rfl hts hc hc' config with
    h | ⟨config₁, intent, comments, k, ws, us, rfl, ⟨d, hs, hp, hrun⟩, ⟨d', hs', hp', hrun'⟩⟩
  · exact .inl h
  · obtain ⟨h, hh⟩ := Cursor.exists_reads_of_piled hs hp
    obtain ⟨h', hh'⟩ := Cursor.exists_reads_of_piled hs' hp'
    rcases KeepRule.parser_of_place hplace hh hh' with
      ha | ⟨q, marks, b, b', hcollects, hmarks, hb, hb', hq, hq'⟩
    · left
      rw [hrun, hrun']
      exact withRule_of_astray ha config₁
    · exact .inr ⟨config₁, q, marks, _, hcollects, hmarks,
        gathers_of_piled hs hp hrun hh hb hq, gathers_of_piled hs' hp' hrun' hh' hb' hq'⟩

/-- A run of modifiers is gathered, or it ends the reading with its first conflict. -/
theorem Gathers.run {vocabulary : ModifierSet} {config config₁ : Configuration} {c : Cursor}
    {us ts : List (Option String × String)} {q : Access → Parser KeepRule} {marks ms : List Mark}
    {k : Option String} (h : Gathers ctx settings config c (us ++ ts) config₁ q marks k)
    (hq : Collects vocabulary q) (hmarks : ∀ m ∈ marks, m.modifier ∈ vocabulary)
    (hms : ∀ m ∈ ms, m.modifier ∈ vocabulary) (hus : us.map Prod.snd = ms.map Mark.word)
    (hne : us ≠ []) :
    (∃ a d v, Access.requireAll {} (marks ++ ms) = .ok a ∧
        d.StandsOn settings [] ((Cursor.collected k us, v) :: ts) ∧
        Configuration.run ctx config c = withRule ctx config₁ (q a d)) ∨
      ∃ e location d, Access.requireAll {} (marks ++ ms) = .error e ∧
        Configuration.run ctx config c =
          (config₁, .error (.rejected (.modifier e) location) d) := by
  obtain ⟨b, hrun, hb⟩ := h
  obtain ⟨d, v, hreads, hd⟩ := hb us ts hne rfl
  rw [hus, ← List.map_append] at hreads
  have hall : ∀ m ∈ marks ++ ms, m.modifier ∈ vocabulary := fun m hm =>
    (List.mem_append.1 hm).elim (hmarks m) (hms m)
  rcases hq.readsAll hall hreads with ⟨a, ha, hqa⟩ | ⟨e, location, d', he, hqe⟩
  · exact .inl ⟨a, d, v, ha, hd, hrun.trans (congrArg _ hqa)⟩
  · exact .inr ⟨e, location, d', he, hrun.trans (congrArg _ hqe)⟩

/-! ## The same modifiers -/

/-- Both readings find conflicts in the modifiers that they ask for after the same others. -/
def ConflictAlike (ms ms' : List Mark) (o o' : Configuration × Except ParseError Unit) : Prop :=
  ∃ marks config e e', Access.requireAll {} (marks ++ ms) = .error e ∧
    Access.requireAll {} (marks ++ ms') = .error e' ∧
    unlocated o = (config, .error (.rejected (.modifier e))) ∧
    unlocated o' = (config, .error (.rejected (.modifier e')))

/-- Rules that go on from the same modifiers, with the same words and comments ahead. -/
theorem withRule_of_collects {vocabulary : ModifierSet} {q : Access → Parser KeepRule}
    (hq : Collects vocabulary q) {a : Access} {k : Option String} {v v' : String}
    {ts : List (Option String × String)} {d d' : Cursor}
    (hd : d.StandsOn settings [] ((k, v) :: ts)) (hd' : d'.StandsOn settings [] ((k, v') :: ts))
    (config : Configuration) :
    unlocated (withRule ctx config (q a d')).ending =
      unlocated (withRule ctx config (q a d)).ending := by
  refine withRule_of_resumed (hq.agree (resumed settings).pairing.toPairing ?_) config
  obtain ⟨hv, hs, hb, hf, hk⟩ := hd
  obtain ⟨-, hs', hb', hf', hk'⟩ := hd'
  refine ⟨⟨v, hv, hv⟩, hs, hs', [], _, _, rfl, rfl, d.reader.top, d'.reader.top, ts, ?_⟩
  exact ⟨congrArg (List.cons _) hb, congrArg (List.cons _) hb', hf, hf', hk'.trans hk.symm⟩

/-- **Which modifiers occur is all that counts.** Two readings that differ in a run of modifiers end
alike if the same modifiers occur in it, unless both find a conflict. -/
theorem run_of_sameModifiers {before mid : List String} {vocabulary : ModifierSet}
    (hopen : RuleOpen ctx settings before mid) (hplace : ModifierPlace mid vocabulary)
    {ms ms' : List Mark} (hms : ∀ m ∈ ms, m.modifier ∈ vocabulary) (hsame : ∀ m, m ∈ ms' ↔ m ∈ ms)
    {ts us us' vs : List (Option String × String)} (hts : ts.map Prod.snd = before)
    (hus : us.map Prod.snd = ms.map Mark.word) (hus' : us'.map Prod.snd = ms'.map Mark.word)
    (hk : ∀ k, Cursor.collected k us' = Cursor.collected k us) (hne : us ≠ []) (hne' : us' ≠ [])
    {c c' : Cursor} (hc : c.StandsOn settings [] (ts ++ (us ++ vs)))
    (hc' : c'.StandsOn settings [] (ts ++ (us' ++ vs))) (config : Configuration) :
    unlocated (run ctx config c').ending = unlocated (run ctx config c).ending ∨
      ConflictAlike ms ms' (run ctx config c).ending (run ctx config c').ending := by
  rcases run_of_place hopen hplace hts hc hc' config with
    h | ⟨config₁, q, marks, k, hq, hmarks, hg, hg'⟩
  · exact .inl h
  have hms' : ∀ m ∈ ms', m.modifier ∈ vocabulary := fun m hm => hms m ((hsame m).1 hm)
  have hmem : ∀ m, m ∈ marks ++ ms' ↔ m ∈ marks ++ ms := by
    intro m
    rw [List.mem_append, List.mem_append, hsame]
  rcases hg.run hq hmarks hms hus hne with
    ⟨a, d, v, ha, hd, hrun⟩ | ⟨e, location, d, he, hrun⟩
  · have ha' := (Access.requireAll_of_mem hmem).2 ha
    rcases hg'.run hq hmarks hms' hus' hne' with
      ⟨b, d', v', hb, hd', hrun'⟩ | ⟨e', location', d', he', hrun'⟩
    · obtain rfl : a = b := Except.ok.inj (ha'.symm.trans hb)
      rw [hk] at hd'
      left
      rw [hrun, hrun']
      exact withRule_of_collects hq hd hd' config₁
    · rw [ha'] at he'
      cases he'
  · rcases hg'.run hq hmarks hms' hus' hne' with
      ⟨b, d', v', hb, hd', hrun'⟩ | ⟨e', location', d', he', hrun'⟩
    · rw [(Access.requireAll_of_mem hmem).1 hb] at he
      cases he
    · refine .inr ⟨marks, config₁, e, e', he, he', ?_, ?_⟩
      · rw [hrun]
        rfl
      · rw [hrun']
        rfl

end

/-! ## Texts -/

/-- Reading has failed because modifiers conflict. -/
def EndsInConflict (o : Configuration × Except ParseError Unit) : Prop :=
  ∃ modifiers location, o.2 = .error (.rejected (.modifier (.conflicting modifiers)) location)

/-- Reading gets past the words: what comes after them makes a difference. Where it ends within the
words, all texts that begin with them are read alike. -/
def ReadsPast (ctx : Context) (settings : Settings) (config : Configuration)
    (ts : List (Option String × String)) : Prop :=
  ∃ name name' text text', ts <+: Word.ofText settings.pathSeparator text ∧
    ts <+: Word.ofText settings.pathSeparator text' ∧
    unlocated (readInto ctx settings config (.ofText name text)) ≠
      unlocated (readInto ctx settings config (.ofText name' text'))

section
variable {ctx : Context} {settings : Settings} {config : Configuration}

theorem endsInConflict_iff {o : Configuration × Except ParseError Unit} :
    EndsInConflict o ↔
      ∃ modifiers, (unlocated o).2 = .error (.rejected (.modifier (.conflicting modifiers))) := by
  obtain ⟨config, r⟩ := o
  constructor
  · rintro ⟨modifiers, location, rfl⟩
    exact ⟨modifiers, rfl⟩
  · rintro ⟨modifiers, h⟩
    cases r with
    | ok u => cases h
    | error e =>
      cases e with
      | rejected reason location =>
        cases h
        exact ⟨modifiers, location, rfl⟩
      | unreadable origin fault => cases h

theorem EndsInConflict.of_unlocated {o o' : Configuration × Except ParseError Unit}
    (h : EndsInConflict o) (ho : unlocated o' = unlocated o) : EndsInConflict o' := by
  rw [endsInConflict_iff] at h ⊢
  rwa [ho]

theorem endsInConflict_of_requireAll {o : Configuration × Except ParseError Unit}
    {config : Configuration} {marks : List Mark} {e : ModifierError}
    (he : Access.requireAll {} marks = .error e)
    (ho : unlocated o = (config, .error (.rejected (.modifier e)))) : EndsInConflict o := by
  obtain ⟨modifiers, rfl⟩ := Access.requireAll_eq_error he
  exact endsInConflict_iff.2 ⟨modifiers, congrArg Prod.snd ho⟩

theorem ConflictAlike.ends {ms ms' : List Mark} {o o' : Configuration × Except ParseError Unit}
    (h : ConflictAlike ms ms' o o') : EndsInConflict o ∧ EndsInConflict o' := by
  obtain ⟨marks, config, e, e', he, he', ho, ho'⟩ := h
  exact ⟨endsInConflict_of_requireAll he ho, endsInConflict_of_requireAll he' ho'⟩

/-- Both readings succeed with the same configuration, or both fail with the same partial one. -/
def EndTogether (o o' : Configuration × Except ParseError Unit) : Prop :=
  (∃ config, o = (config, .ok ()) ∧ o' = (config, .ok ())) ∨
    ∃ config e e', o = (config, .error e) ∧ o' = (config, .error e')

theorem endTogether_of_unlocated {o o' : Configuration × Except ParseError Unit}
    (h : unlocated o' = unlocated o) : EndTogether o o' := by
  obtain ⟨config, r⟩ := o
  cases r with
  | ok u =>
    obtain ⟨config', r'⟩ := o'
    obtain ⟨rfl, hr⟩ := Prod.mk.inj h
    cases r' with
    | ok u' => exact .inl ⟨_, rfl, rfl⟩
    | error e' => cases hr
  | error e =>
    obtain ⟨e', rfl, -⟩ := unlocated_of_error h rfl
    exact .inr ⟨config, e, e', rfl, rfl⟩

theorem ConflictAlike.endTogether {ms ms' : List Mark}
    {o o' : Configuration × Except ParseError Unit} (h : ConflictAlike ms ms' o o') :
    EndTogether o o' := by
  have herror : ∀ {o : Configuration × Except ParseError Unit} {config : Configuration}
      {cause : Cause}, unlocated o = (config, .error cause) → ∃ e, o = (config, .error e) := by
    rintro ⟨config₁, r⟩ config cause ho
    obtain ⟨rfl, hr⟩ := Prod.mk.inj ho
    cases r with
    | ok u => cases hr
    | error e => exact ⟨e, rfl⟩
  obtain ⟨_, config, _, _, -, -, ho, ho'⟩ := h
  obtain ⟨e, rfl⟩ := herror ho
  obtain ⟨e', rfl⟩ := herror ho'
  exact .inr ⟨config, e, e', rfl, rfl⟩

section
variable {before mid : List String} {vocabulary : ModifierSet} {ms ms' : List Mark}
  {ts us us' vs : List (Option String × String)} {text text' : String}

/-- Reading a text starts at the first of the words in front of the rule that is open. -/
theorem exists_standsOn_of_ruleOpen (hopen : RuleOpen ctx settings before mid)
    (hts : ts.map Prod.snd = before)
    (ht : Word.ofText settings.pathSeparator text = ts ++ vs) (config : Configuration)
    (name : String) :
    ∃ c : Cursor, c.StandsOn settings [] (ts ++ vs) ∧
      readInto ctx settings config (.ofText name text) = (run ctx config c).ending := by
  obtain ⟨c, hc, hstands⟩ := Cursor.stands_of_text settings name text
  have hne : ts ≠ [] := by
    rintro rfl
    exact hopen.ne_nil hts.symm
  rw [ht] at hstands
  exact ⟨c, hstands.standsOn (List.append_ne_nil_of_left_ne_nil hne _), readInto_of_cursor hc⟩

theorem readInto_of_sameModifiers (hopen : RuleOpen ctx settings before mid)
    (hplace : ModifierPlace mid vocabulary) (hms : ∀ m ∈ ms, m.modifier ∈ vocabulary)
    (hsame : ∀ m, m ∈ ms' ↔ m ∈ ms) (hts : ts.map Prod.snd = before)
    (hus : us.map Prod.snd = ms.map Mark.word) (hus' : us'.map Prod.snd = ms'.map Mark.word)
    (hk : ∀ k, Cursor.collected k us' = Cursor.collected k us) (hne : us ≠ []) (hne' : us' ≠ [])
    (ht : Word.ofText settings.pathSeparator text = ts ++ us ++ vs)
    (ht' : Word.ofText settings.pathSeparator text' = ts ++ us' ++ vs) (name : String) :
    unlocated (readInto ctx settings config (.ofText name text')) =
        unlocated (readInto ctx settings config (.ofText name text)) ∨
      ConflictAlike ms ms' (readInto ctx settings config (.ofText name text))
        (readInto ctx settings config (.ofText name text')) := by
  rw [List.append_assoc] at ht ht'
  obtain ⟨c, hc, hread⟩ := exists_standsOn_of_ruleOpen hopen hts ht config name
  obtain ⟨c', hc', hread'⟩ := exists_standsOn_of_ruleOpen hopen hts ht' config name
  rw [hread, hread']
  exact run_of_sameModifiers hopen hplace hms hsame hts hus hus' hk hne hne' hc hc' config

/-- Texts with the same words and comments are read alike. -/
theorem readInto_of_ofText_eq (h : Word.ofText settings.pathSeparator text' =
      Word.ofText settings.pathSeparator text) (name : String) :
    unlocated (readInto ctx settings config (.ofText name text')) =
      unlocated (readInto ctx settings config (.ofText name text)) := by
  obtain ⟨c, hc, hstands⟩ := Cursor.stands_of_text settings name text
  obtain ⟨c', hc', hstands'⟩ := Cursor.stands_of_text settings name text'
  rw [readInto_of_cursor hc, readInto_of_cursor hc']
  exact run_of_resumed hstands (h ▸ hstands')

/-- The modifiers in another order, with the comments where they were. -/
theorem readInto_of_permuted (hopen : RuleOpen ctx settings before mid)
    (hplace : ModifierPlace mid vocabulary) (hms : ∀ m ∈ ms, m.modifier ∈ vocabulary)
    (hperm : ms'.Perm ms) (hts : ts.map Prod.snd = before)
    (hus : us.map Prod.snd = ms.map Mark.word) (hus' : us'.map Prod.snd = ms'.map Mark.word)
    (hk : us'.map Prod.fst = us.map Prod.fst)
    (ht : Word.ofText settings.pathSeparator text = ts ++ us ++ vs)
    (ht' : Word.ofText settings.pathSeparator text' = ts ++ us' ++ vs) (name : String) :
    unlocated (readInto ctx settings config (.ofText name text')) =
        unlocated (readInto ctx settings config (.ofText name text)) ∨
      ConflictAlike ms ms' (readInto ctx settings config (.ofText name text))
        (readInto ctx settings config (.ofText name text')) := by
  by_cases hne : us = []
  · subst hne
    rw [List.map_nil, List.map_eq_nil_iff] at hk
    rw [hk] at ht'
    exact .inl (readInto_of_ofText_eq (ht'.trans ht.symm) name)
  · have hne' : us' ≠ [] := by
      rintro rfl
      rw [List.map_nil, eq_comm, List.map_eq_nil_iff] at hk
      exact hne hk
    have hcollected : ∀ k, Cursor.collected k us' = Cursor.collected k us := fun k => by
      rw [Cursor.collected, Cursor.collected, hk]
    exact readInto_of_sameModifiers hopen hplace hms (fun m => hperm.mem_iff) hts hus hus'
      hcollected hne hne' ht ht' name

/-- One of the modifiers occurs again. -/
theorem readInto_of_repeated {u v : List Mark} {m n : Mark} (hn : n ∈ u ++ [m])
    (hopen : RuleOpen ctx settings before mid) (hplace : ModifierPlace mid vocabulary)
    (hms : ∀ k ∈ u ++ m :: v, k.modifier ∈ vocabulary) (hts : ts.map Prod.snd = before)
    (hus : us.map Prod.snd = (u ++ m :: v).map Mark.word)
    (hus' : us'.map Prod.snd = (u ++ m :: n :: v).map Mark.word)
    (hk : ∀ k, Cursor.collected k us' = Cursor.collected k us)
    (ht : Word.ofText settings.pathSeparator text = ts ++ us ++ vs)
    (ht' : Word.ofText settings.pathSeparator text' = ts ++ us' ++ vs) (name : String) :
    unlocated (readInto ctx settings config (.ofText name text')) =
      unlocated (readInto ctx settings config (.ofText name text)) := by
  have hsame : ∀ k, k ∈ u ++ m :: n :: v ↔ k ∈ u ++ m :: v := by grind
  have hne : us ≠ [] := by
    rintro rfl
    simp at hus
  have hne' : us' ≠ [] := by
    rintro rfl
    simp at hus'
  rcases readInto_of_sameModifiers hopen hplace hms hsame hts hus hus' hk hne hne' ht ht' name
    with h | ⟨marks, config₁, e, e', he, he', ho, ho'⟩
  · exact h
  · -- the conflict is the same, as the repeated modifier never makes one
    rw [List.append_cons u m (n :: v), ← List.append_assoc,
      Access.requireAll_repeated (List.mem_append_right marks hn)] at he'
    rw [List.append_cons u m v, ← List.append_assoc, he'] at he
    rw [ho, ho', Except.error.inj he]

/-- A reading that gets past the words comes to collect the modifiers after them. -/
theorem gathers_of_readsPast (hopen : RuleOpen ctx settings before mid)
    (hplace : ModifierPlace mid vocabulary) (hts : ts.map Prod.snd = before)
    (hpast : ReadsPast ctx settings config ts) {c : Cursor}
    (hc : c.StandsOn settings [] (ts ++ vs)) :
    ∃ config₁ q marks k, Collects vocabulary q ∧ (∀ m ∈ marks, m.modifier ∈ vocabulary) ∧
      Gathers ctx settings config c vs config₁ q marks k := by
  obtain ⟨name₁, name₂, text₁, text₂, ⟨_, ht₁⟩, ⟨_, ht₂⟩, hne⟩ := hpast
  obtain ⟨c₁, hc₁, hread₁⟩ := exists_standsOn_of_ruleOpen hopen hts ht₁.symm config name₁
  obtain ⟨c₂, hc₂, hread₂⟩ := exists_standsOn_of_ruleOpen hopen hts ht₂.symm config name₂
  rw [hread₁, hread₂] at hne
  -- if neither of the texts came to the modifiers, both were read like this one
  rcases run_of_place hopen hplace hts hc hc₁ config with
    h₁ | ⟨config₁, q, marks, k, hq, hmarks, hg, -⟩
  · rcases run_of_place hopen hplace hts hc hc₂ config with
      h₂ | ⟨config₁, q, marks, k, hq, hmarks, hg, -⟩
    · exact absurd (h₁.trans h₂.symm) hne
    · exact ⟨config₁, q, marks, k, hq, hmarks, hg⟩
  · exact ⟨config₁, q, marks, k, hq, hmarks, hg⟩

/-- A run of modifiers that is reached ends the reading, if it is not consistent. -/
theorem endsInConflict_of_readsPast (hopen : RuleOpen ctx settings before mid)
    (hplace : ModifierPlace mid vocabulary) (hms : ∀ m ∈ ms, m.modifier ∈ vocabulary)
    (hts : ts.map Prod.snd = before) (hus : us.map Prod.snd = ms.map Mark.word)
    (ht : Word.ofText settings.pathSeparator text = ts ++ us ++ vs)
    (hpast : ReadsPast ctx settings config ts) (hms' : ¬Mark.Consistent ms) (name : String) :
    EndsInConflict (readInto ctx settings config (.ofText name text)) := by
  have hne : us ≠ [] := by
    rintro rfl
    rw [List.map_nil, eq_comm, List.map_eq_nil_iff] at hus
    exact hms' (hus ▸ nofun)
  rw [List.append_assoc] at ht
  obtain ⟨c, hc, hread⟩ := exists_standsOn_of_ruleOpen hopen hts ht config name
  obtain ⟨config₁, q, marks, k, hq, hmarks, hg⟩ :=
    gathers_of_readsPast hopen hplace hts hpast hc
  rcases hg.run hq hmarks hms hus hne with ⟨a, d, v, ha, -, -⟩ | ⟨e, location, d, he, hrun⟩
  · exact absurd ((Access.requireAll_eq_ok_iff.1 ha).2.of_subset
      (List.subset_append_right _ _)) hms'
  · refine @endsInConflict_of_requireAll _ config₁ _ _ he ?_
    rw [hread, hrun]
    rfl

end

/-! ## Rewording a run of modifiers -/

section
variable {separator : Char} {text : String} {ts us vs : List (Option String × String)}
  {ms ms' : List Mark}

theorem isWord_of_mem_marks (ht : Word.ofText separator text = ts ++ us ++ vs)
    (hus : us.map Prod.snd = ms.map Mark.word) {m : Mark} (hm : m ∈ ms) :
    Word.IsWord separator m.word := by
  have hmem : m.word ∈ Word.list separator text := by
    rw [Word.list, ht, List.map_append, List.map_append, hus]
    exact List.mem_append_left _ (List.mem_append_right _ (List.mem_map_of_mem hm))
  exact Word.isWord_of_mem_list hmem

theorem length_word_pos (m : Mark) : m.word.length ≠ 1 := by
  obtain ⟨n, present⟩ := m
  cases present <;> cases n <;> decide

/-- A modifier, which is no delimiter, can be replaced by any words. -/
theorem fits_of_mark {m : Mark} {p : String × List String} (hp : Word.Spells separator p.1 p.2)
    (hne : p.2 ≠ []) : Word.Fits separator m.word p := by
  refine ⟨hp, hne, fun d _ hm => absurd ?_ (length_word_pos m)⟩
  rw [hm, String.length_singleton]

/-- The modifiers in another order, with the comments where they were. -/
theorem ofText_permuted (ht : Word.ofText separator text = ts ++ us ++ vs)
    (hus : us.map Prod.snd = ms.map Mark.word) (hperm : ms'.Perm ms) :
    ∃ us', Word.ofText separator (Word.reword separator text
          (ts.map Prod.snd ++ ms'.map Mark.word ++ vs.map Prod.snd)) = ts ++ us' ++ vs ∧
      us'.map Prod.snd = ms'.map Mark.word ∧ us'.map Prod.fst = us.map Prod.fst := by
  have hfits : List.Forall₂ (Word.Fits separator) (us.map Prod.snd)
      ((ms'.map Mark.word).map fun v => (v, [v])) := by
    rw [hus, List.map_map, List.forall₂_map_left_iff, List.forall₂_map_right_iff,
      List.forall₂_iff_zip]
    refine ⟨hperm.length_eq.symm, fun {m n} hmem => ?_⟩
    have hn : n ∈ ms := hperm.mem_iff.1 (List.of_mem_zip hmem).2
    exact fits_of_mark (.word (isWord_of_mem_marks ht hus hn)) (List.cons_ne_nil _ _)
  have htext := Word.ofText_reword_part ht hfits
  rw [Word.map_fst_words, Word.spread_words] at htext
  have hlength : us.length = ms'.length := by simpa using hfits.length_eq
  refine ⟨_, htext, List.map_snd_zip ?_, List.map_fst_zip ?_⟩
  · rw [List.length_map, List.length_map, hlength]
  · rw [List.length_map, List.length_map, hlength]

/-- One of the modifiers, and another one after it. -/
theorem ofText_inserted {u v : List Mark} {m n : Mark}
    (ht : Word.ofText separator text = ts ++ us ++ vs)
    (hus : us.map Prod.snd = (u ++ m :: v).map Mark.word) (hn : n ∈ u ++ m :: v) :
    ∃ us', Word.ofText separator (Word.reword separator text (ts.map Prod.snd ++
          (u.map Mark.word ++ (m.word ++ " " ++ n.word) :: v.map Mark.word) ++
            vs.map Prod.snd)) = ts ++ us' ++ vs ∧
      us'.map Prod.snd = (u ++ m :: n :: v).map Mark.word ∧
      ∀ k, Cursor.collected k us' = Cursor.collected k us := by
  have hm : Word.IsWord separator m.word :=
    isWord_of_mem_marks ht hus (List.mem_append_right _ List.mem_cons_self)
  have hspells : Word.Spells separator (m.word ++ " " ++ n.word) [m.word, n.word] :=
    (Word.Spells.word hm).space (.word (isWord_of_mem_marks ht hus hn))
  rw [List.map_append, List.map_cons] at hus
  obtain ⟨us₁, _, rfl, hus₁, htail⟩ := List.map_eq_append_iff.1 hus
  obtain ⟨⟨k, _⟩, us₂, rfl, rfl, hus₂⟩ := List.map_eq_cons_iff.1 htail
  have ht' : Word.ofText separator text = ts ++ us₁ ++ [(k, m.word)] ++ (us₂ ++ vs) := by
    rw [ht]
    simp
  have hfits : Word.Fits separator m.word (m.word ++ " " ++ n.word, [m.word, n.word]) :=
    fits_of_mark hspells (List.cons_ne_nil _ _)
  have htext := Word.ofText_reword_part ht' (.cons hfits .nil)
  refine ⟨us₁ ++ (k, m.word) :: (none, n.word) :: us₂, ?_, ?_, fun k' => ?_⟩
  · rw [List.map_append, List.map_append, hus₁, hus₂] at htext
    simpa [Word.spread, Word.headed] using htext
  · simp [hus₁, hus₂]
  · have hnone : ∀ c, Frame.joinComments c none = c := fun c => by cases c <;> rfl
    simp [Cursor.collected, hnone]

end

section
variable {before mid after : List String} {vocabulary : ModifierSet} {run run' : List Mark}
  {text : String}

/-- **The order of modifiers never matters.** A text that permutes a run of modifiers, in front of a
class or of a member, ends together with the original. Both find a conflict if reading comes to the
run and a modifier occurs in it both with `!` and without. Repeating one of the modifiers changes
nothing. -/
theorem readInto_reordered (ctx : Context) (settings : Settings) (config : Configuration)
    (name : String) (hwords : Word.list settings.pathSeparator text =
      before ++ run.map Mark.word ++ after)
    (hopen : RuleOpen ctx settings before mid) (hplace : ModifierPlace mid vocabulary)
    (hrun : ∀ m ∈ run, m.modifier ∈ vocabulary) (hperm : run'.Perm run) :
    (∃ text', text' = Word.reword settings.pathSeparator text
          (before ++ run'.map Mark.word ++ after) ∧
        Word.list settings.pathSeparator text' = before ++ run'.map Mark.word ++ after ∧
        EndTogether (readInto ctx settings config (.ofText name text))
          (readInto ctx settings config (.ofText name text')) ∧
        (ReadsPast ctx settings config
            ((Word.ofText settings.pathSeparator text).take before.length) →
          ¬Mark.Consistent run →
          EndsInConflict (readInto ctx settings config (.ofText name text)) ∧
            EndsInConflict (readInto ctx settings config (.ofText name text')))) ∧
      ∀ u m v n, run = u ++ m :: v → n ∈ u ++ [m] →
        ∃ text', text' = Word.reword settings.pathSeparator text (before ++
            (u.map Mark.word ++ (m.word ++ " " ++ n.word) :: v.map Mark.word) ++ after) ∧
          Word.list settings.pathSeparator text' =
            before ++ (u ++ m :: n :: v).map Mark.word ++ after ∧
          unlocated (readInto ctx settings config (.ofText name text')) =
            unlocated (readInto ctx settings config (.ofText name text)) := by
  rw [Word.list] at hwords
  obtain ⟨_, vs, ht, hfront, rfl⟩ := List.map_eq_append_iff.1 hwords
  obtain ⟨ts, us, rfl, rfl, hus⟩ := List.map_eq_append_iff.1 hfront
  have hlist : ∀ {text' : String} {us' : List (Option String × String)} {ms : List Mark},
      Word.ofText settings.pathSeparator text' = ts ++ us' ++ vs →
      us'.map Prod.snd = ms.map Mark.word → Word.list settings.pathSeparator text' =
        ts.map Prod.snd ++ ms.map Mark.word ++ vs.map Prod.snd := by
    intro text' us' ms ht' hus'
    rw [Word.list, ht', List.map_append, List.map_append, hus']
  refine ⟨?_, ?_⟩
  · obtain ⟨us', ht', hus', hk⟩ := ofText_permuted ht hus hperm
    have halike := @readInto_of_permuted _ _ config _ _ _ _ _ _ _ _ _ _ _ hopen hplace hrun hperm
      rfl hus hus' hk ht ht' name
    refine ⟨_, rfl, hlist ht' hus', ?_, fun hpast hinconsistent => ?_⟩
    · exact halike.elim endTogether_of_unlocated ConflictAlike.endTogether
    · have htake :
          (Word.ofText settings.pathSeparator text).take (ts.map Prod.snd).length = ts := by
        rw [ht, List.length_map, List.append_assoc, List.take_left]
      have hconflict := endsInConflict_of_readsPast hopen hplace hrun rfl hus ht (htake ▸ hpast)
        hinconsistent name
      exact ⟨hconflict, halike.elim hconflict.of_unlocated fun h => h.ends.2⟩
  · rintro u m v n rfl hn
    have hmem : n ∈ u ++ m :: v := List.append_cons u m v ▸ List.mem_append_left v hn
    obtain ⟨us', ht', hus', hk⟩ := ofText_inserted ht hus hmem
    exact ⟨_, rfl, hlist ht' hus',
      readInto_of_repeated hn hopen hplace hrun rfl hus hus' hk ht ht' name⟩

/-- The reading fails at the second of the modifiers, whichever that is. -/
theorem readInto_reordered_conflicting :
    (Word.list ':' "-keep public !public class A" =
        ["-keep"] ++ List.map Mark.word [⟨.accPublic, true⟩, ⟨.accPublic, false⟩] ++
          ["class", "A"] ∧
      RuleOpen bareContext {} ["-keep"] [] ∧ ModifierPlace [] KeepRule.classVocabulary ∧
      ReadsPast bareContext {} {} [(none, "-keep")]) ∧
    EndsInConflict (readInto bareContext {} {} (.ofText "n" "-keep public !public class A")) ∧
    EndsInConflict (readInto bareContext {} {} (.ofText "n" "-keep !public public class A")) := by
  have hlook : Directive.lookup? "-keep" = some ("-keep", .keep .keep) := by decide
  have hpast : ReadsPast bareContext {} {} [(none, "-keep")] := by
    obtain ⟨c, hc, hp, -⟩ := Cursor.poised_of_text {} "n" "-keep"
    obtain ⟨c', hc', hp', -⟩ := Cursor.poised_of_text {} "n" "-keep class A"
    have hp : c.Poised {} ["-keep"] := hp
    have hp' : c'.Poised {} ["-keep", "class", "A"] := hp'
    -- the keyword needs a rule after it
    obtain ⟨e, c₁, hfails⟩ := @KeepRule.parser_of_ahead_nil .keep c.reader.top.comments _
      (hp.dispatched "-keep" "-keep").1.rest
    have hrule : (RulePhrase.bare "A").Valid := RulePhrase.bare_valid (by decide)
    obtain ⟨c₂, hrun⟩ := run_of_last hp' hlook (by simp) (.keep hrule) {}
    refine ⟨"n", "n", "-keep", "-keep class A", ⟨[], by decide⟩,
      ⟨[(none, "class"), (none, "A")], by decide⟩, fun he => ?_⟩
    rw [readInto_of_cursor hc, readInto_of_cursor hc', run_of_keep hp.1.word hlook, hfails,
      hrun] at he
    cases congrArg Prod.snd he
  have hlist : Word.list ':' "-keep public !public class A" =
      ["-keep"] ++ List.map Mark.word [⟨.accPublic, true⟩, ⟨.accPublic, false⟩] ++
        ["class", "A"] := by decide
  have hopen : RuleOpen bareContext {} ["-keep"] [] := @RuleOpen.keyword _ _ [] _ _ _ _ hlook
  have hplace : ModifierPlace [] KeepRule.classVocabulary := @ModifierPlace.ofClass [] (by simp)
  have hreword : Word.reword ':' "-keep public !public class A"
      (["-keep"] ++ List.map Mark.word [⟨.accPublic, false⟩, ⟨.accPublic, true⟩] ++
        ["class", "A"]) = "-keep !public public class A" := by decide
  have hswap : List.Perm [⟨.accPublic, false⟩, ⟨.accPublic, true⟩]
      [(⟨.accPublic, true⟩ : Mark), ⟨.accPublic, false⟩] := .swap _ _ []
  obtain ⟨⟨text', rfl, -, -, hconflict⟩, -⟩ :=
    readInto_reordered bareContext {} {} "n" hlist hopen hplace (by decide) hswap
  refine ⟨⟨hlist, hopen, hplace, hpast⟩, ?_⟩
  have hinconsistent : ¬Mark.Consistent [⟨.accPublic, true⟩, ⟨.accPublic, false⟩] :=
    fun h => h .accPublic (by simp) (by simp)
  exact hreword ▸ hconflict hpast hinconsistent

end

end

end Configuration

end KeepRules
