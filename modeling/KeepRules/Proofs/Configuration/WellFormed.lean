import KeepRules.Proofs.Configuration.Effects
import KeepRules.Proofs.Lines
import KeepRules.Proofs.Rule.WellFormed

/-! # Runs keep configurations well formed

`Configuration.WellFormed` is what can be relied on in every configuration that is read: in its
rules, class paths, attributes and default package. Every effect and every loss keeps it, hence
does every run, also one that fails (`run_wellFormed`). -/

set_option autoImplicit false

namespace KeepRules.Configuration

/-- What can be relied on in a configuration. -/
structure WellFormed (c : Configuration) : Prop where
  keep : ∀ r ∈ c.keep, r.WellFormed
  path : ∀ role, c.path role ≠ some []
  attributes : ∀ names, c.keepAttributes = some names → names = [] ∨ names.head? ≠ some "*"
  package : ∀ p, c.defaultPackage = some p → '.' ∉ p.toList

theorem wellFormed_default : ({} : Configuration).WellFormed where
  keep r hr := by cases hr
  path role := by cases role <;> exact nofun
  attributes := nofun
  package := nofun

/-! ## Fields that a change leaves alone -/

section
variable (c : Configuration)

@[simp] theorem keep_setPath (role : PathRole) (p : Option ClassPath) :
    (c.setPath role p).keep = c.keep := by cases role <;> rfl

@[simp] theorem keepAttributes_setPath (role : PathRole) (p : Option ClassPath) :
    (c.setPath role p).keepAttributes = c.keepAttributes := by cases role <;> rfl

@[simp] theorem text_setPath (role : PathRole) (p : Option ClassPath) (o : TextOption) :
    (c.setPath role p).text o = c.text o := by cases role <;> cases o <;> rfl

@[simp] theorem keep_setText (o : TextOption) (t : Option String) :
    (c.setText o t).keep = c.keep := by cases o <;> rfl

@[simp] theorem keepAttributes_setText (o : TextOption) (t : Option String) :
    (c.setText o t).keepAttributes = c.keepAttributes := by cases o <;> rfl

@[simp] theorem path_setText (o : TextOption) (t : Option String) (role : PathRole) :
    (c.setText o t).path role = c.path role := by cases o <;> cases role <;> rfl

@[simp] theorem keep_setSwitch (s : Switch) (b : Bool) :
    (c.setSwitch s b).keep = c.keep := by cases s <;> rfl

@[simp] theorem keepAttributes_setSwitch (s : Switch) (b : Bool) :
    (c.setSwitch s b).keepAttributes = c.keepAttributes := by cases s <;> rfl

@[simp] theorem path_setSwitch (s : Switch) (b : Bool) (role : PathRole) :
    (c.setSwitch s b).path role = c.path role := by cases s <;> cases role <;> rfl

@[simp] theorem text_setSwitch (s : Switch) (b : Bool) (o : TextOption) :
    (c.setSwitch s b).text o = c.text o := by cases s <;> cases o <;> rfl

end

/-! ## Effects and losses -/

theorem WellFormed.setPath {c : Configuration} (h : c.WellFormed) {role : PathRole}
    {p : Option ClassPath} (hp : p ≠ some []) : (c.setPath role p).WellFormed where
  keep := by rw [keep_setPath]; exact h.keep
  path s := by
    rw [path_setPath]
    split
    · exact hp
    · exact h.path s
  attributes := by rw [keepAttributes_setPath]; exact h.attributes
  package := by
    show ∀ p', (c.setPath role p).text .defaultPackage = some p' → _
    rw [text_setPath]
    exact h.package

theorem WellFormed.setText {c : Configuration} (h : c.WellFormed) {o : TextOption} {w : String} :
    (c.setText o (some (o.value w))).WellFormed where
  keep := by rw [keep_setText]; exact h.keep
  path role := by rw [path_setText]; exact h.path role
  attributes := by rw [keepAttributes_setText]; exact h.attributes
  package p hp := by
    have hp' : (c.setText o (some (o.value w))).text .defaultPackage = some p := hp
    rw [text_setText] at hp'
    split at hp'
    · next ho =>
      -- a package is converted to its internal form, which has no dots
      cases hp'
      rw [ho, TextOption.value, if_pos rfl]
      exact ClassName.dot_notMem_toInternal w
    · exact h.package p hp'

theorem WellFormed.setSwitch {c : Configuration} (h : c.WellFormed) {s : Switch} {b : Bool} :
    (c.setSwitch s b).WellFormed where
  keep := by rw [keep_setSwitch]; exact h.keep
  path role := by rw [path_setSwitch]; exact h.path role
  attributes := by rw [keepAttributes_setSwitch]; exact h.attributes
  package := by
    show ∀ p, (c.setSwitch s b).text .defaultPackage = some p → _
    rw [text_setSwitch]
    exact h.package

theorem WellFormed.setAttributes {c : Configuration} (h : c.WellFormed)
    {names : Option (List String)}
    (hn : ∀ l, names = some l → l = [] ∨ l.head? ≠ some "*") :
    ({ c with keepAttributes := names } : Configuration).WellFormed where
  keep := h.keep
  path role := by
    have hp := h.path role
    cases role <;> exact hp
  attributes := hn
  package := h.package

theorem WellFormed.addRule {c : Configuration} (h : c.WellFormed) {r : KeepRule}
    (hr : r.WellFormed) : (c.addRule r).WellFormed where
  keep r' hm := by
    rcases List.mem_append.1 hm with hm | hm
    · exact h.keep r' hm
    · rw [List.mem_singleton.1 hm]
      exact hr
  path role := by
    have hp := h.path role
    cases role <;> exact hp
  attributes := h.attributes
  package := h.package

/-- A class path directive adds at least one entry. -/
theorem entries_ne_nil {separator : Char} {ctx : Context} {es : List EntryPhrase}
    {entries : ClassPath} (hv : ClassPath.ValidPhrases separator es)
    (hs : ClassPath.Say ctx es entries) : entries ≠ [] := by
  cases es with
  | nil => exact hv.elim
  | cons e es =>
    obtain ⟨entry, rest, -, -, rfl⟩ := hs
    exact List.cons_ne_nil _ _

theorem WellFormed.effect {separator : Char} {ctx : Context} {c c' : Configuration}
    (h : c.WellFormed) (he : Effect separator ctx c c') : c'.WellFormed := by
  cases he with
  | inclusion => exact h
  | classPath hv hs _ =>
    refine h.setPath fun he => ?_
    exact entries_ne_nil hv hs (List.append_eq_nil_iff.1 (Option.some.inj he)).2
  | keep hv hw hi => exact h.addRule (RulePhrase.printable hv hw hi).wellFormed
  | allAttributes => exact h.setAttributes (by rintro l ⟨⟩; exact .inl rfl)
  | @attributes n ns hne _ =>
    refine h.setAttributes ?_
    rintro l ⟨⟩
    right
    cases hk : c.keepAttributes with
    | none => simpa using hne
    | some names =>
      rcases h.attributes names hk with rfl | hhead
      · simpa using hne
      · cases names with
        | nil => simpa using hne
        | cons m names => simpa using hhead
  | text _ => exact h.setText
  | switch => exact h.setSwitch

theorem WellFormed.changes {separator : Char} {ctx : Context} {c c' : Configuration}
    (h : c.WellFormed) (hc : Changes separator ctx c c') : c'.WellFormed :=
  hc.keeps (fun he ha => ha.effect he) h

theorem WellFormed.loss {c c' : Configuration} (h : c.WellFormed) (hl : Loss c c') :
    c'.WellFormed := by
  cases hl with
  | nothing => exact h
  | classPath => exact h.setPath nofun
  | attributes => exact h.setAttributes nofun

/-- **Whatever is read, and however reading ends**, the configuration stays well formed. -/
theorem run_wellFormed :
    ({} : Configuration).WellFormed ∧
      ∀ (ctx : Context) (settings : Settings) (source : Source) (config : Configuration)
        (c : Cursor), config.WellFormed → Cursor.ofReader (.ofSource source settings) = .ok c →
        (run ctx config c).1.WellFormed := by
  refine ⟨wellFormed_default, fun ctx settings source config c hw hc => ?_⟩
  obtain ⟨hl, -⟩ := lexical_of_ofReader hc
  obtain ⟨config', hch, hr | ⟨-, hloss⟩⟩ := @changes_of_run ctx config c hl
  · rw [hr]
    exact hw.changes hch
  · exact (hw.changes hch).loss hloss

/-- No variables, no files, no properties. -/
def bareContext : Context where
  properties := {}
  host := { environment := ⟨[]⟩, directory := "/", openFile := fun _ => .error .notFound }

/-- A rule with a member is read, and then a directive fails. -/
theorem run_wellFormed_of_failing :
    ∃ c, Cursor.ofReader (.ofSource
        (.ofArguments ["-keep class a.B \x7b int n; \x7d", "-injars"]) {}) = .ok c ∧
      (run bareContext {} c).1.WellFormed := by
  obtain ⟨c, hc, -⟩ := @Cursor.holds_of_lines
    (.ofArguments ["-keep class a.B \x7b int n; \x7d", "-injars"]) {}
    ["-keep class a.B \x7b int n; \x7d", "-injars"] rfl rfl
  exact ⟨c, hc, run_wellFormed.2 _ _ _ _ c wellFormed_default hc⟩

end KeepRules.Configuration
