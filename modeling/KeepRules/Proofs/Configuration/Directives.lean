import KeepRules.Configuration.Parser
import KeepRules.Proofs.ClassPath
import KeepRules.Proofs.Rule.Parsing

/-! # What directives read

The parsers for the arguments of directives other than class paths and keep rules, by the words
that they pass: `attributes_iff` and `argument_iff`. An include is the one directive after which
words come from another source; what it leaves in place is said by `lexical_of_includeFile`. -/

set_option autoImplicit false

namespace KeepRules

namespace Parser

/-! ## Attributes -/

theorem attributeRound_iff {names : List String} {w : String} {c c' : Cursor}
    {r : Round (List String) (List String)} (hw : c.word = some w) :
    attributeRound names c = .ok r c' ↔
      (c.Passes [] c' ∧ c'.atEnd = true ∧ r = .done (names ++ [w])) ∨
        ∃ v, Directive.starts v = false ∧ c.Reads [",", v] c' ∧ r = .again (names ++ [w]) := by
  simp only [attributeRound, bind_eq_ok, current_eq_ok, atEnd_eq_ok, hw, Option.getD_some,
    Cursor.Passes.nil_iff]
  constructor
  · rintro ⟨_, _, ⟨rfl, rfl⟩, _, c₁, h₁, b, _, ⟨hb, rfl⟩, h⟩
    split at h
    · next hend =>
      obtain ⟨rfl, rfl⟩ := pure_eq_ok.1 h
      exact .inl ⟨h₁, hb.trans hend, rfl⟩
    · simp only [bind_eq_ok, isAt_eq_ok, Cursor.is] at h
      obtain ⟨b', _, ⟨hb', rfl⟩, h⟩ := h
      split at h
      · next hcomma =>
        simp only [bind_eq_ok, readWord_iff, pure_eq_ok] at h
        obtain ⟨v, c₂, ⟨h₂, hv⟩, rfl, rfl⟩ := h
        have hword : c₁.word = some "," := by simpa [hcomma] using hb'
        exact .inr ⟨v, hv, .cons h₁ hword h₂, rfl⟩
      · exact (reject_ne_ok h).elim
  · rintro (⟨h₁, hend, rfl⟩ | ⟨v, hv, hr, rfl⟩)
    · refine ⟨w, c, ⟨rfl, rfl⟩, (), c', h₁, true, c', ⟨hend, rfl⟩, ?_⟩
      rw [if_pos rfl]
      exact pure_eq_ok.2 ⟨rfl, rfl⟩
    · obtain ⟨c₁, h₁, h₂⟩ := Cursor.Reads.cons_iff.1 hr
      obtain ⟨ha, hword⟩ := Cursor.Reads.singleton_iff.1 h₁
      refine ⟨w, c, ⟨rfl, rfl⟩, (), c₁, ha, false, c₁, ⟨?_, rfl⟩, ?_⟩
      · rw [Cursor.atEnd, hword]
        decide
      · rw [if_neg (by decide)]
        simp only [bind_eq_ok, isAt_eq_ok, Cursor.is]
        refine ⟨true, c₁, ⟨by simp [hword], rfl⟩, ?_⟩
        rw [if_pos rfl]
        simp only [bind_eq_ok, readWord_iff, pure_eq_ok]
        exact ⟨v, c', ⟨h₂, hv⟩, trivial, rfl⟩

theorem word_of_takes_names {w : String} {ns : List String} {c c' : Cursor}
    (h : c.Takes ((w :: ns).intersperse ",") c') : c.word = some w := by
  cases ns with
  | nil => exact h.word
  | cons v ns => exact h.word

theorem takes_of_attributeLoop {names l : List String} {w : String} {c c' : Cursor}
    (h : attributeLoop.run names c = .ok l c') (hw : c.word = some w) :
    ∃ ns, (∀ n ∈ ns, Directive.starts n = false) ∧ c.Takes ((w :: ns).intersperse ",") c' ∧
      c'.atEnd = true ∧ l = names ++ w :: ns := by
  refine Loop.run_induction (P := fun names c l c' => ∀ w, c.word = some w → ∃ ns,
    (∀ n ∈ ns, Directive.starts n = false) ∧ c.Takes ((w :: ns).intersperse ",") c' ∧
    c'.atEnd = true ∧ l = names ++ w :: ns) ?_ ?_ h w hw
  · intro names c l c' hr w hw
    rcases (attributeRound_iff hw).1 hr with ⟨hp, hend, he⟩ | ⟨v, -, -, he⟩ <;> cases he
    exact ⟨[], by simp, Cursor.Takes.cons_iff.2 ⟨hw, hp⟩, hend, rfl⟩
  · intro names c names' c₁ l c' hr ih w hw
    rcases (attributeRound_iff hw).1 hr with ⟨-, -, he⟩ | ⟨v, hv, hc, he⟩ <;> cases he
    have hc' : c.Reads ([","] ++ [v]) c₁ := hc
    obtain ⟨ns, hns, ht, hend, rfl⟩ := ih v hc'.word
    refine ⟨v :: ns, ?_, ?_, hend, by simp⟩
    · intro n hn
      rcases List.mem_cons.1 hn with rfl | hn
      · exact hv
      · exact hns n hn
    · have hp : c.Passes [","] c₁ := hc'.passes_init
      exact Cursor.Takes.cons_iff.2 ⟨hw, Cursor.Passes.takes_iff (u := [","]).2 ⟨c₁, hp, ht⟩⟩

theorem attributeLoop_of_takes {names ns : List String} {w : String} {c c' : Cursor}
    (hns : ∀ n ∈ ns, Directive.starts n = false) (ht : c.Takes ((w :: ns).intersperse ",") c')
    (hend : c'.atEnd = true) : attributeLoop.run names c = .ok (names ++ w :: ns) c' := by
  induction ns generalizing names w c with
  | nil =>
    obtain ⟨hw, hp⟩ := Cursor.Takes.cons_iff.1 ht
    exact Loop.run_eq_ok.2 (.inl ((attributeRound_iff hw).2 (.inl ⟨hp, hend, rfl⟩)))
  | cons v ns ih =>
    obtain ⟨hw, hp⟩ := Cursor.Takes.cons_iff.1 ht
    obtain ⟨c₁, h₁, h₂⟩ := Cursor.Passes.takes_iff (u := [","]).1 hp
    have hc : c.Reads [",", v] c₁ := h₁.reads (word_of_takes_names h₂)
    have hv := hns v List.mem_cons_self
    rw [List.append_cons names w]
    exact Loop.run_eq_ok.2 (.inr ⟨_, c₁, (attributeRound_iff hw).2 (.inr ⟨v, hv, hc, rfl⟩),
      ih (fun n hn => hns n (List.mem_cons_of_mem _ hn)) h₂⟩)

/-- Attributes are read as nothing, as `*`, or as a list that does not start with `*`. -/
theorem attributes_iff {names l : List String} {c c' : Cursor} :
    attributes names c = .ok l c' ↔
      (c.Passes [] c' ∧ c'.atEnd = true ∧ l = []) ∨ (c.Passes ["*"] c' ∧ l = []) ∨
        ∃ n ns, (∀ m ∈ n :: ns, Directive.starts m = false) ∧ n ≠ "*" ∧
          c.Passes ((n :: ns).intersperse ",") c' ∧ c'.atEnd = true ∧ l = names ++ n :: ns := by
  simp only [attributes, bind_eq_ok, atEnd_eq_ok, Cursor.Passes.nil_iff]
  constructor
  · rintro ⟨_, c₁, h₁, b, _, ⟨hb, rfl⟩, h⟩
    split at h
    · next hend =>
      obtain ⟨rfl, rfl⟩ := pure_eq_ok.1 h
      exact .inl ⟨h₁, hb.trans hend, rfl⟩
    · next hend =>
      simp only [bind_eq_ok, isAt_eq_ok, Cursor.is] at h
      obtain ⟨b', _, ⟨hb', rfl⟩, h⟩ := h
      split at h
      · next hstar =>
        simp only [bind_eq_ok, pure_eq_ok] at h
        obtain ⟨_, c₂, h₂, rfl, rfl⟩ := h
        have hword : c₁.word = some "*" := by simpa [hstar] using hb'
        exact .inr (.inl ⟨⟨c₁, .cons h₁ hword .nil, h₂⟩, rfl⟩)
      · next hstar =>
        cases hword : c₁.word with
        | none => simp [← hb, Cursor.atEnd, hword] at hend
        | some n =>
          have hn : Directive.starts n = false := by simpa [← hb, Cursor.atEnd, hword] using hend
          have hne : n ≠ "*" := by simpa [← hb', hword] using hstar
          obtain ⟨ns, hns, ht, hend', rfl⟩ := takes_of_attributeLoop h hword
          refine .inr (.inr ⟨n, ns, ?_, hne, ?_, hend', rfl⟩)
          · intro m hm
            rcases List.mem_cons.1 hm with rfl | hm
            · exact hn
            · exact hns m hm
          · exact Cursor.Passes.takes_iff (u := []).2 ⟨c₁, Cursor.Passes.nil_iff.2 h₁, ht⟩
  · rintro (⟨h₁, hend, rfl⟩ | ⟨⟨c₁, hr, h₂⟩, rfl⟩ | ⟨n, ns, hns, hne, hp, hend, rfl⟩)
    · refine ⟨(), c', h₁, true, c', ⟨hend, rfl⟩, ?_⟩
      rw [if_pos rfl]
      exact pure_eq_ok.2 ⟨rfl, rfl⟩
    · obtain ⟨h₁, hword⟩ := Cursor.Reads.singleton_iff.1 hr
      refine ⟨(), c₁, h₁, false, c₁, ⟨by rw [Cursor.atEnd, hword]; decide, rfl⟩, ?_⟩
      rw [if_neg (by decide)]
      simp only [bind_eq_ok, isAt_eq_ok, Cursor.is]
      refine ⟨true, c₁, ⟨by simp [hword], rfl⟩, ?_⟩
      rw [if_pos rfl]
      simp only [bind_eq_ok, pure_eq_ok]
      exact ⟨(), c', h₂, trivial, rfl⟩
    · obtain ⟨c₁, h₁, ht⟩ := Cursor.Passes.takes_iff (u := []).1 hp
      have hword : c₁.word = some n := word_of_takes_names ht
      have hn := hns n List.mem_cons_self
      refine ⟨(), c₁, Cursor.Passes.nil_iff.1 h₁, false, c₁, ⟨?_, rfl⟩, ?_⟩
      · rw [Cursor.atEnd, hword]
        exact hn
      rw [if_neg (by decide)]
      simp only [bind_eq_ok, isAt_eq_ok, Cursor.is]
      refine ⟨false, c₁, ⟨by simpa [hword] using hne, rfl⟩, ?_⟩
      rw [if_neg (by decide)]
      exact attributeLoop_of_takes (fun m hm => hns m (List.mem_cons_of_mem _ hm)) ht hend

/-! ## Single arguments and includes -/

theorem argument_iff {w : String} {c c' : Cursor} :
    argument c = .ok w c' ↔
      (c.Passes [] c' ∧ c'.atEnd = true ∧ w = "") ∨
        (c.Passes [w] c' ∧ Directive.starts w = false) := by
  simp only [argument, bind_eq_ok, atEnd_eq_ok, Cursor.Passes.nil_iff]
  constructor
  · rintro ⟨_, c₁, h₁, b, _, ⟨hb, rfl⟩, h⟩
    split at h
    · next hend =>
      obtain ⟨rfl, rfl⟩ := pure_eq_ok.1 h
      exact .inl ⟨h₁, hb.trans hend, rfl⟩
    · next hend =>
      simp only [bind_eq_ok, current_eq_ok, pure_eq_ok] at h
      obtain ⟨_, _, ⟨rfl, rfl⟩, _, c₂, h₂, rfl, rfl⟩ := h
      cases hword : c₁.word with
      | none => simp [← hb, Cursor.atEnd, hword] at hend
      | some v =>
        have hv : Directive.starts v = false := by simpa [← hb, Cursor.atEnd, hword] using hend
        exact .inr ⟨⟨c₁, .cons h₁ hword .nil, h₂⟩, hv⟩
  · rintro (⟨h₁, hend, rfl⟩ | ⟨⟨c₁, hr, h₂⟩, hw⟩)
    · refine ⟨(), c', h₁, true, c', ⟨hend, rfl⟩, ?_⟩
      rw [if_pos rfl]
      exact pure_eq_ok.2 ⟨rfl, rfl⟩
    · obtain ⟨h₁, hword⟩ := Cursor.Reads.singleton_iff.1 hr
      refine ⟨(), c₁, h₁, false, c₁, ⟨by rw [Cursor.atEnd, hword]; exact hw, rfl⟩, ?_⟩
      rw [if_neg (by decide)]
      simp only [bind_eq_ok, current_eq_ok, pure_eq_ok]
      exact ⟨w, c₁, ⟨by rw [hword]; rfl, rfl⟩, (), c', h₂, rfl, rfl⟩

theorem enter_eq_ok {source : Source} {c c' : Cursor} {u : Unit}
    (h : enter source c = .ok u c') :
    c'.word = c.word ∧ c'.reader.separator = c.reader.separator ∧
      c'.reader.top = { source := source } ∧ c'.reader.below = c.reader.top :: c.reader.below := by
  unfold enter Reader.includeSource at h
  split at h
  · next hi =>
    cases h
    split at hi <;> cases hi
    exact ⟨rfl, rfl, rfl, rfl⟩
  · cases h

theorem includeFile_eq_ok {ctx : Context} {c c' : Cursor} {u : Unit}
    (h : includeFile ctx c = .ok u c') :
    ∃ w source c₁ c₂, c.Reads [w] c₁ ∧ enter source c₁ = .ok () c₂ ∧ advance c₂ = .ok () c' := by
  simp only [includeFile, bind_eq_ok, readWord_iff, substitute_eq_ok] at h
  obtain ⟨w, c₁, ⟨h₁, -⟩, _, _, ⟨-, rfl⟩, source, c₂, h₂, _, c₃, h₃, h₄⟩ := h
  have e₂ : c₁ = c₂ := by
    unfold liftError at h₂
    split at h₂ <;> cases h₂
    rfl
  subst e₂
  exact ⟨w, source, c₁, c₃, h₁, h₃, h₄⟩

/-- Whatever is included, its words look like words. -/
theorem lexical_of_includeFile {ctx : Context} {c c' : Cursor} {u : Unit} (hc : c.Lexical)
    (h : includeFile ctx c = .ok u c') : c'.Lexical := by
  obtain ⟨w, source, c₁, c₂, h₁, h₂, h₃⟩ := includeFile_eq_ok h
  have hl : c₁.Lexical := (h₁.lexical hc).1
  obtain ⟨hword, hsep, htop, hbelow⟩ := enter_eq_ok h₂
  have hl₂ : c₂.Lexical := by
    refine ⟨by rw [hword, hsep]; exact hl.word, fun f hf => ?_⟩
    rw [hsep]
    rw [htop, hbelow] at hf
    rcases List.mem_cons.1 hf with rfl | hf
    · intro v hv
      cases hv
    · exact hl.reader f hf
  exact hl₂.advance h₃

theorem separator_of_includeFile {ctx : Context} {c c' : Cursor} {u : Unit}
    (h : includeFile ctx c = .ok u c') : c'.reader.separator = c.reader.separator := by
  obtain ⟨w, source, c₁, c₂, h₁, h₂, h₃⟩ := includeFile_eq_ok h
  rw [Cursor.separator_of_advance h₃, (enter_eq_ok h₂).2.1, h₁.separator]

end Parser

end KeepRules
