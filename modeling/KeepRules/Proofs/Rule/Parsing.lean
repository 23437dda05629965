import KeepRules.Proofs.Reading
import KeepRules.Proofs.Rule.Grammar
import KeepRules.Rule.Parser

/-! # Keep rules are read by their grammar

Each part of the parser for keep rules succeeds exactly on the words of a valid phrase, and gives
what the phrase says: `classLoop_run_iff` and `modifierLoop_run_iff` for runs of modifiers,
`form_of_member`, `member_of_form` and `memberLoop_run_iff` for members, `parser_iff` for rules, and
`parser_ok_iff_derives` for rules by the words ahead. -/

set_option autoImplicit false

namespace KeepRules

open KeepRules.Parser

namespace Mark

theorem stripNegator_word (m : Mark) :
    Word.stripNegator m.word = (m.modifier.keyword, m.present) := by
  obtain ⟨n, present⟩ := m
  cases present <;> cases n <;> decide

theorem starts_word (m : Mark) : Directive.starts m.word = false := by
  obtain ⟨n, present⟩ := m
  cases present <;> cases n <;> decide

/-- A word that is a keyword, after a `!` or not, is a modifier as it is written. -/
theorem eq_word {w : String} {m : Modifier}
    (h : Modifier.ofKeyword? (Word.stripNegator w).1 = some m) :
    w = word ⟨m, (Word.stripNegator w).2⟩ := by
  have hk := Modifier.keyword_of_ofKeyword? h
  unfold Word.stripNegator at hk ⊢
  cases hs : Text.strip? ['!'] w.toList with
  | none =>
    rw [hs] at hk
    exact hk.symm
  | some rest =>
    rw [hs] at hk
    have hw : w.toList = '!' :: rest := by
      unfold Text.strip? at hs
      split at hs
      · next hp =>
        obtain ⟨t, ht⟩ := List.isPrefixOf_iff_prefix.1 hp
        rw [← ht] at hs ⊢
        cases hs
        rfl
      · cases hs
    show w = "!" ++ m.keyword
    rw [show m.keyword = String.ofList rest from hk, ← String.toList_inj, hw]
    simp

end Mark

namespace Modifier

theorem ofMemberKeyword?_eq_some {w : String} {m : Modifier} :
    ofMemberKeyword? w = some m ↔ ofKeyword? w = some m ∧ m ∈ ModifierSet.forMember := by
  simp [ofMemberKeyword?, Option.filter_eq_some_iff]

theorem ofClassKeyword?_eq_some {w : String} {m : Modifier} :
    ofClassKeyword? w = some m ↔ ofKeyword? w = some m ∧ m ∈ ModifierSet.forClass := by
  simp [ofClassKeyword?, Option.filter_eq_some_iff]

end Modifier

theorem Word.stripNegator_of_isPattern {w : String} (h : Identifier.isPattern w = true) :
    Word.stripNegator w = (w, true) := by
  have hn := Identifier.notMem_of_isPattern h (c := '!') (by decide)
  unfold stripNegator Text.strip?
  rw [if_neg]
  intro hp
  obtain ⟨t, ht⟩ := List.isPrefixOf_iff_prefix.1 hp
  exact hn (ht ▸ List.mem_cons_self)

namespace KeepRule

/-! ## Runs of modifiers -/

theorem classRound_iff {marks : List Mark} {c c' : Cursor} {r : Round Access Access} :
    classRound (.ofMarks marks) c = .ok r c' ↔
      (c.Reads ["class"] c' ∧ r = .done (.ofMarks marks)) ∨
        ∃ m : Mark, c.Reads [m.word] c' ∧ m.modifier ∈ ModifierSet.forClass ∧
          Mark.Consistent (marks ++ [m]) ∧
          r = if m.modifier = .accInterface then .done (.ofMarks (marks ++ [m]))
            else .again (.ofMarks (marks ++ [m])) := by
  simp only [classRound, bind_eq_ok, readWord_iff]
  constructor
  · rintro ⟨w, c₁, ⟨hr, hs⟩, h⟩
    split at h
    · next hw =>
      obtain ⟨rfl, rfl⟩ := pure_eq_ok.1 h
      exact .inl ⟨hw ▸ hr, rfl⟩
    · simp only [bind_eq_ok, getOrReject_eq_ok, liftModifier_eq_ok, pure_eq_ok,
        Modifier.ofClassKeyword?_eq_some] at h
      obtain ⟨m, _, ⟨⟨hm, hc⟩, rfl⟩, a, _, ⟨ha, rfl⟩, rfl, rfl⟩ := h
      have hw := Mark.eq_word hm
      obtain ⟨rfl, hcons⟩ := Access.require_ofMarks (m := ⟨m, _⟩).1 ha
      exact .inr ⟨⟨m, _⟩, hw ▸ hr, hc, hcons, rfl⟩
  · rintro (⟨hr, rfl⟩ | ⟨m, hr, hc, hcons, rfl⟩)
    · exact ⟨"class", c', ⟨hr, by decide⟩, by rw [if_pos rfl]; exact pure_eq_ok.2 ⟨rfl, rfl⟩⟩
    · refine ⟨m.word, c', ⟨hr, m.starts_word⟩, ?_⟩
      have hne : m.word ≠ "class" := by
        obtain ⟨n, present⟩ := m
        cases present <;> cases n <;> decide
      rw [if_neg hne]
      simp only [bind_eq_ok, getOrReject_eq_ok, liftModifier_eq_ok, pure_eq_ok,
        Modifier.ofClassKeyword?_eq_some, m.stripNegator_word, Modifier.ofKeyword?_keyword]
      exact ⟨m.modifier, c', ⟨⟨rfl, hc⟩, rfl⟩, _, c', ⟨Access.require_ofMarks.2 ⟨rfl, hcons⟩, rfl⟩,
        rfl, rfl⟩

/-- After `marks`, a consistent run of class modifiers, and the keyword that ends it, are read. -/
def ReadsHead (marks : List Mark) (c : Cursor) (a : Access) (c' : Cursor) : Prop :=
  ∃ (ms : List Mark) (kind : ClassKind),
    (∀ m ∈ ms, m.modifier ∈ [.accPublic, .accFinal, .accAbstract]) ∧
      Mark.Consistent (marks ++ ms) ∧ c.Reads (ms.map Mark.word ++ [kind.word]) c' ∧
      a = .ofMarks (marks ++ ms ++ kind.marks)

theorem readsHead_of_classLoop {marks : List Mark} {c c' : Cursor} {a : Access}
    (hm : Mark.Consistent marks) (h : classLoop.run (.ofMarks marks) c = .ok a c') :
    ReadsHead marks c a c' := by
  refine Loop.run_induction (P := fun b c a c' => ∀ marks, Mark.Consistent marks →
    b = .ofMarks marks → ReadsHead marks c a c') ?_ ?_ h marks hm rfl
  · rintro b c a c' hr marks hm rfl
    rcases classRound_iff.1 hr with ⟨hc, he⟩ | ⟨⟨n, present⟩, hc, -, -, he⟩
    · cases he
      exact ⟨[], .ofClass, by simp, by simpa using hm, hc, by simp [ClassKind.marks]⟩
    · split at he
      · next hi =>
        cases he
        obtain rfl : n = .accInterface := hi
        exact ⟨[], .ofInterface present, by simp, by simpa using hm, hc,
          by simp [ClassKind.marks]⟩
      · cases he
  · rintro b c a' c₁ a c' hr ih marks - rfl
    rcases classRound_iff.1 hr with ⟨-, he⟩ | ⟨m, hc, hm, hcons, he⟩
    · cases he
    · split at he
      · cases he
      · next hi =>
        cases he
        obtain ⟨ms, kind, hms, hk, hrd, rfl⟩ := ih (marks ++ [m]) hcons rfl
        refine ⟨m :: ms, kind, fun k hk' => ?_, by simpa using hk, hc.append hrd, by simp⟩
        rcases List.mem_cons.1 hk' with rfl | hk'
        · exact (Modifier.mem_forClass.1 hm).resolve_left hi
        · exact hms k hk'

theorem classLoop_of_readsHead {marks : List Mark} {c c' : Cursor} {a : Access}
    (hm : ∀ m ∈ marks, m.modifier ∈ [.accPublic, .accFinal, .accAbstract])
    (h : ReadsHead marks c a c') : classLoop.run (.ofMarks marks) c = .ok a c' := by
  obtain ⟨ms, kind, hms, hcons, hr, rfl⟩ := h
  induction ms generalizing marks c with
  | nil =>
    rw [List.append_nil] at hcons ⊢
    refine Loop.run_eq_ok.2 (.inl (classRound_iff.2 ?_))
    have hk := RulePhrase.consistent_append_kind kind hm hcons
    cases kind with
    | ofClass => exact .inl ⟨hr, by simp [ClassKind.marks]⟩
    | ofInterface present =>
      exact .inr ⟨⟨.accInterface, present⟩, hr, Modifier.mem_forClass.2 (.inl rfl), hk, rfl⟩
  | cons m ms ih =>
    obtain ⟨c₁, h₁, h₂⟩ := Cursor.Reads.cons_iff.1 hr
    have hmm := hms m List.mem_cons_self
    have hne : m.modifier ≠ .accInterface := fun he => by rw [he] at hmm; simp at hmm
    rw [List.append_cons] at hcons ⊢
    refine Loop.run_eq_ok.2 (.inr ⟨_, c₁, classRound_iff.2 (.inr ⟨m, h₁, ?_, hcons.of_append, ?_⟩),
      ih ?_ (fun k hk => hms k (List.mem_cons_of_mem _ hk)) hcons h₂⟩)
    · exact Modifier.mem_forClass.2 (.inr hmm)
    · rw [if_neg hne]
    · intro k hk
      rcases List.mem_append.1 hk with hk | hk
      · exact hm k hk
      · rw [List.mem_singleton.1 hk]
        exact hmm

theorem classLoop_run_iff {c c' : Cursor} {a : Access} :
    classLoop.run {} c = .ok a c' ↔ ReadsHead [] c a c' :=
  ⟨fun h => readsHead_of_classLoop nofun h, fun h => classLoop_of_readsHead (by simp) h⟩

theorem modifierRound_iff {marks : List Mark} {c c' : Cursor}
    {r : Round Access (Option (Access × String))} :
    modifierRound (.ofMarks marks) c = .ok r c' ↔
      (marks = [] ∧ c.Reads ["\x7d"] c' ∧ r = .done none) ∨
        (∃ w, ¬ (marks = [] ∧ w = "\x7d") ∧ c.Reads [w] c' ∧ Directive.starts w = false ∧
          Modifier.ofMemberKeyword? (Word.stripNegator w).1 = none ∧
          r = .done (some (.ofMarks marks, w))) ∨
        ∃ m : Mark, c.Reads [m.word] c' ∧ m.modifier ∈ ModifierSet.forMember ∧
          Mark.Consistent (marks ++ [m]) ∧ r = .again (.ofMarks (marks ++ [m])) := by
  simp only [modifierRound, bind_eq_ok, readWord_iff, Access.isEmpty_ofMarks, Bool.and_eq_true,
    List.isEmpty_iff, beq_iff_eq]
  constructor
  · rintro ⟨w, c₁, ⟨hr, hs⟩, h⟩
    split at h
    · next hw =>
      obtain ⟨rfl, rfl⟩ := pure_eq_ok.1 h
      exact .inl ⟨hw.1, hw.2 ▸ hr, rfl⟩
    · next hw =>
      cases hm : Modifier.ofMemberKeyword? (Word.stripNegator w).1 with
      | none =>
        rw [hm] at h
        obtain ⟨rfl, rfl⟩ := pure_eq_ok.1 h
        exact .inr (.inl ⟨w, hw, hr, hs, hm, rfl⟩)
      | some m =>
        simp only [hm, bind_eq_ok, liftModifier_eq_ok, pure_eq_ok] at h
        obtain ⟨a, _, ⟨ha, rfl⟩, rfl, rfl⟩ := h
        obtain ⟨hk, hmem⟩ := Modifier.ofMemberKeyword?_eq_some.1 hm
        obtain ⟨rfl, hcons⟩ := Access.require_ofMarks (m := ⟨m, _⟩).1 ha
        exact .inr (.inr ⟨⟨m, _⟩, Mark.eq_word hk ▸ hr, hmem, hcons, rfl⟩)
  · rintro (⟨rfl, hr, rfl⟩ | ⟨w, hw, hr, hs, hm, rfl⟩ | ⟨m, hr, hmem, hcons, rfl⟩)
    · refine ⟨"\x7d", c', ⟨hr, by decide⟩, ?_⟩
      rw [if_pos ⟨rfl, rfl⟩]
      exact pure_eq_ok.2 ⟨rfl, rfl⟩
    · refine ⟨w, c', ⟨hr, hs⟩, ?_⟩
      rw [if_neg hw, hm]
      exact pure_eq_ok.2 ⟨rfl, rfl⟩
    · refine ⟨m.word, c', ⟨hr, m.starts_word⟩, ?_⟩
      have hne : m.word ≠ "\x7d" := by
        obtain ⟨n, present⟩ := m
        cases present <;> cases n <;> decide
      have hk : Modifier.ofMemberKeyword? m.modifier.keyword = some m.modifier :=
        Modifier.ofMemberKeyword?_eq_some.2 ⟨m.modifier.ofKeyword?_keyword, hmem⟩
      rw [if_neg fun h => hne h.2, m.stripNegator_word]
      simp only [hk, bind_eq_ok, liftModifier_eq_ok, pure_eq_ok]
      exact ⟨_, c', ⟨Access.require_ofMarks.2 ⟨rfl, hcons⟩, rfl⟩, rfl, rfl⟩

/-- After `marks`, a consistent run of member modifiers and the word after it are read. The word
is given with the modifiers, or left out if it closes the block. -/
def ReadsModifiers (marks : List Mark) (c : Cursor) (c' : Cursor) :
    Option (Access × String) → Prop
  | none => marks = [] ∧ c.Reads ["\x7d"] c'
  | some (a, w) => ∃ ms : List Mark, (∀ m ∈ ms, m.modifier ∈ ModifierSet.forMember) ∧
      Mark.Consistent (marks ++ ms) ∧ c.Reads (ms.map Mark.word ++ [w]) c' ∧
      Directive.starts w = false ∧ Modifier.ofMemberKeyword? (Word.stripNegator w).1 = none ∧
      ¬ (marks ++ ms = [] ∧ w = "\x7d") ∧ a = .ofMarks (marks ++ ms)

theorem readsModifiers_of_modifierLoop {marks : List Mark} {c c' : Cursor}
    {r : Option (Access × String)} (hm : Mark.Consistent marks)
    (h : modifierLoop.run (.ofMarks marks) c = .ok r c') : ReadsModifiers marks c c' r := by
  refine Loop.run_induction (P := fun b c r c' => ∀ marks, Mark.Consistent marks →
    b = .ofMarks marks → ReadsModifiers marks c c' r) ?_ ?_ h marks hm rfl
  · rintro b c r c' hr marks hm rfl
    rcases modifierRound_iff.1 hr with
      ⟨rfl, hc, he⟩ | ⟨w, hne, hc, hs, hk, he⟩ | ⟨m, -, -, -, he⟩ <;> cases he
    · exact ⟨rfl, hc⟩
    · exact ⟨[], by simp, by simpa using hm, hc, hs, hk, by simpa using hne, by simp⟩
  · rintro b c a' c₁ r c' hr ih marks - rfl
    rcases modifierRound_iff.1 hr with
      ⟨-, -, he⟩ | ⟨w, -, -, -, -, he⟩ | ⟨m, hc, hmem, hcons, he⟩ <;> cases he
    have := ih (marks ++ [m]) hcons rfl
    cases r with
    | none => exact absurd this.1 (by simp)
    | some p =>
      obtain ⟨a, w⟩ := p
      obtain ⟨ms, hms, hc', hrd, hs, hk, hne, rfl⟩ := this
      refine ⟨m :: ms, fun k hk => ?_, by simpa using hc', hc.append hrd, hs, hk, by simp, by simp⟩
      rcases List.mem_cons.1 hk with rfl | hk
      · exact hmem
      · exact hms k hk

theorem modifierLoop_of_readsModifiers {marks : List Mark} {c c' : Cursor}
    {r : Option (Access × String)} (h : ReadsModifiers marks c c' r) :
    modifierLoop.run (.ofMarks marks) c = .ok r c' := by
  cases r with
  | none => exact Loop.run_eq_ok.2 (.inl (modifierRound_iff.2 (.inl ⟨h.1, h.2, rfl⟩)))
  | some p =>
    obtain ⟨a, w⟩ := p
    obtain ⟨ms, hms, hcons, hr, hs, hk, hne, rfl⟩ := h
    induction ms generalizing marks c with
    | nil =>
      rw [List.append_nil] at hne ⊢
      exact Loop.run_eq_ok.2 (.inl (modifierRound_iff.2 (.inr (.inl ⟨w, hne, hr, hs, hk, rfl⟩))))
    | cons m ms ih =>
      obtain ⟨c₁, h₁, h₂⟩ := Cursor.Reads.cons_iff.1 hr
      rw [List.append_cons] at hcons hne ⊢
      refine Loop.run_eq_ok.2 (.inr ⟨_, c₁, modifierRound_iff.2 (.inr (.inr ⟨m, h₁, ?_, ?_, rfl⟩)),
        ih (fun k hk => hms k (List.mem_cons_of_mem _ hk)) hcons h₂ hne⟩)
      · exact hms m List.mem_cons_self
      · exact hcons.of_append

theorem modifierLoop_run_iff {c c' : Cursor} {r : Option (Access × String)} :
    modifierLoop.run {} c = .ok r c' ↔ ReadsModifiers [] c c' r :=
  ⟨fun h => readsModifiers_of_modifierLoop nofun h, fun h => modifierLoop_of_readsModifiers h⟩

/-! ## Members -/

theorem argumentRound_iff {arguments : List String} {c c' : Cursor}
    {r : Round (List String) (List String)} :
    argumentRound arguments c = .ok r c' ↔
      (arguments = [] ∧ c.Reads [")"] c' ∧ r = .done []) ∨
        ∃ w, Identifier.isPattern w = true ∧
          ((c.Reads [w, ","] c' ∧ r = .again (arguments ++ [w])) ∨
            (c.Reads [w, ")"] c' ∧ r = .done (arguments ++ [w]))) := by
  simp only [argumentRound, bind_eq_ok, readWord_iff, Bool.and_eq_true, List.isEmpty_iff,
    beq_iff_eq]
  constructor
  · rintro ⟨w, c₁, ⟨hr, -⟩, h⟩
    split at h
    · next hw =>
      obtain ⟨rfl, rfl⟩ := pure_eq_ok.1 h
      exact .inl ⟨hw.1, hw.2 ▸ hr, by rw [hw.1]⟩
    · simp only [bind_eq_ok, checkPattern_eq_ok, readWord_iff] at h
      obtain ⟨_, _, ⟨hp, rfl⟩, v, c₂, ⟨hr', -⟩, h⟩ := h
      refine .inr ⟨w, hp, ?_⟩
      split at h
      · next hv =>
        obtain ⟨rfl, rfl⟩ := pure_eq_ok.1 h
        exact .inl ⟨hr.append (hv ▸ hr'), rfl⟩
      · split at h
        · next hv =>
          obtain ⟨rfl, rfl⟩ := pure_eq_ok.1 h
          exact .inr ⟨hr.append (hv ▸ hr'), rfl⟩
        · exact (reject_ne_ok h).elim
  · rintro (⟨rfl, hr, rfl⟩ | ⟨w, hp, h⟩)
    · refine ⟨")", c', ⟨hr, by decide⟩, ?_⟩
      rw [if_pos ⟨rfl, rfl⟩]
      exact pure_eq_ok.2 ⟨rfl, rfl⟩
    · have hne : w ≠ ")" := by
        rintro rfl
        exact Identifier.notMem_of_isPattern hp (c := ')') (by decide) (by decide)
      have hs := Directive.starts_of_isPattern hp
      rcases h with ⟨hr, rfl⟩ | ⟨hr, rfl⟩
      · obtain ⟨m, h₁, h₂⟩ := Cursor.Reads.cons_iff.1 hr
        refine ⟨w, m, ⟨h₁, hs⟩, ?_⟩
        rw [if_neg fun h => hne h.2]
        simp only [bind_eq_ok, checkPattern_eq_ok, readWord_iff]
        refine ⟨(), m, ⟨hp, rfl⟩, ",", c', ⟨h₂, by decide⟩, ?_⟩
        rw [if_pos rfl]
        exact pure_eq_ok.2 ⟨rfl, rfl⟩
      · obtain ⟨m, h₁, h₂⟩ := Cursor.Reads.cons_iff.1 hr
        refine ⟨w, m, ⟨h₁, hs⟩, ?_⟩
        rw [if_neg fun h => hne h.2]
        simp only [bind_eq_ok, checkPattern_eq_ok, readWord_iff]
        refine ⟨(), m, ⟨hp, rfl⟩, ")", c', ⟨h₂, by decide⟩, ?_⟩
        rw [if_neg (by decide), if_pos rfl]
        exact pure_eq_ok.2 ⟨rfl, rfl⟩

theorem reads_of_argumentLoop {acc arguments : List String} {c c' : Cursor}
    (h : argumentLoop.run acc c = .ok arguments c') :
    ∃ rest, arguments = acc ++ rest ∧ (∀ a ∈ rest, Identifier.isPattern a = true) ∧
      c.Reads (rest.intersperse "," ++ [")"]) c' ∧ (rest = [] → acc = []) := by
  refine Loop.run_induction (P := fun acc c arguments c' => ∃ rest, arguments = acc ++ rest ∧
    (∀ a ∈ rest, Identifier.isPattern a = true) ∧ c.Reads (rest.intersperse "," ++ [")"]) c' ∧
    (rest = [] → acc = [])) ?_ ?_ h
  · intro acc c arguments c' hr
    rcases argumentRound_iff.1 hr with ⟨rfl, hc, he⟩ | ⟨w, hp, ⟨-, he⟩ | ⟨hc, he⟩⟩ <;> cases he
    · exact ⟨[], rfl, by simp, hc, fun _ => rfl⟩
    · exact ⟨[w], rfl, by simpa using hp, hc, nofun⟩
  · intro acc c acc' c₁ arguments c' hr ih
    rcases argumentRound_iff.1 hr with ⟨-, -, he⟩ | ⟨w, hp, ⟨hc, he⟩ | ⟨-, he⟩⟩ <;> cases he
    obtain ⟨rest, rfl, hrest, hrd, hne⟩ := ih
    cases rest with
    | nil => exact absurd (hne rfl) (by simp)
    | cons v rest =>
      refine ⟨w :: v :: rest, by simp, ?_, hc.append hrd, nofun⟩
      intro a ha
      rcases List.mem_cons.1 ha with rfl | ha
      · exact hp
      · exact hrest a ha

theorem argumentLoop_of_reads {acc rest : List String} {c c' : Cursor}
    (hp : ∀ a ∈ rest, Identifier.isPattern a = true)
    (hr : c.Reads (rest.intersperse "," ++ [")"]) c') (hne : rest = [] → acc = []) :
    argumentLoop.run acc c = .ok (acc ++ rest) c' := by
  induction rest generalizing acc c with
  | nil =>
    rw [hne rfl]
    exact Loop.run_eq_ok.2 (.inl (argumentRound_iff.2 (.inl ⟨rfl, hr, rfl⟩)))
  | cons w rest ih =>
    have hw := hp w List.mem_cons_self
    cases rest with
    | nil =>
      exact Loop.run_eq_ok.2 (.inl (argumentRound_iff.2 (.inr ⟨w, hw, .inr ⟨hr, rfl⟩⟩)))
    | cons v rest =>
      obtain ⟨c₁, h₁, h₂⟩ := Cursor.Reads.append_iff (u := [w, ","]).1 hr
      rw [List.append_cons]
      exact Loop.run_eq_ok.2 (.inr ⟨_, c₁, argumentRound_iff.2 (.inr ⟨w, hw, .inl ⟨h₁, rfl⟩⟩),
        ih (fun a ha => hp a (List.mem_cons_of_mem _ ha)) h₂ nofun⟩)

theorem argumentLoop_run_iff {arguments : List String} {c c' : Cursor} :
    argumentLoop.run [] c = .ok arguments c' ↔
      (∀ a ∈ arguments, Identifier.isPattern a = true) ∧
        c.Reads (arguments.intersperse "," ++ [")"]) c' := by
  constructor
  · intro h
    obtain ⟨rest, rfl, hp, hr, -⟩ := reads_of_argumentLoop h
    exact ⟨hp, hr⟩
  · rintro ⟨hp, hr⟩
    exact argumentLoop_of_reads hp hr fun _ => rfl

theorem expectSeparator_iff {c c' : Cursor} {u : Unit} :
    expectSeparator c = .ok u c' ↔ c.Reads [";"] c' := by
  simp only [expectSeparator, bind_eq_ok, readWord_iff]
  constructor
  · rintro ⟨w, c₁, ⟨hr, -⟩, h⟩
    split at h
    · next hw =>
      obtain ⟨-, rfl⟩ := pure_eq_ok.1 h
      exact hw ▸ hr
    · exact (reject_ne_ok h).elim
  · intro hr
    refine ⟨";", c', ⟨hr, by decide⟩, ?_⟩
    rw [if_pos rfl]
    exact pure_eq_ok.2 ⟨rfl, rfl⟩

/-- The rule with further fields and methods. -/
def extend (rule : KeepRule) (fields methods : List Member) : KeepRule :=
  { rule with fields := rule.fields ++ fields, methods := rule.methods ++ methods }

theorem extend_extend (rule : KeepRule) (f f' m m' : List Member) :
    (rule.extend f m).extend f' m' = rule.extend (f ++ f') (m ++ m') := by
  simp [extend]

theorem extend_nil (rule : KeepRule) : rule.extend [] [] = rule := by
  simp [extend]

end KeepRule

namespace Access

theorem checkField_eq_ok {a : Access} {u : Unit} :
    a.checkField = .ok u ↔ a.mentioned ⊆ .forField := by
  unfold checkField
  split <;> simp_all

theorem checkMethod_eq_ok {a : Access} {u : Unit} :
    a.checkMethod = .ok u ↔ a.mentioned ⊆ .forMethod := by
  unfold checkMethod
  split <;> simp_all

end Access

namespace KeepRule

theorem wildcard_iff {rule rule' : KeepRule} {access : Access} {fields methods : Bool}
    {c c' : Cursor} :
    wildcard rule access fields methods c = .ok rule' c' ↔
      (fields = true → access.mentioned ⊆ .forField) ∧
        (methods = true → access.mentioned ⊆ .forMethod) ∧ c.Reads [";"] c' ∧
        rule' = rule.extend (if fields then [{ access := access }] else [])
          (if methods then [{ access := access }] else []) := by
  simp only [wildcard, bind_eq_ok, liftModifier_eq_ok, pure_eq_ok, expectSeparator_iff]
  constructor
  · rintro ⟨_, _, ⟨hf, rfl⟩, _, _, ⟨hm, rfl⟩, _, _, hr, rfl, rfl⟩
    refine ⟨fun h => ?_, fun h => ?_, hr, ?_⟩
    · rw [if_pos h] at hf
      exact Access.checkField_eq_ok.1 hf
    · rw [if_pos h] at hm
      exact Access.checkMethod_eq_ok.1 hm
    · cases fields <;> cases methods <;> simp [extend, addField, addMethod]
  · rintro ⟨hf, hm, hr, rfl⟩
    refine ⟨(), c, ⟨?_, rfl⟩, (), c, ⟨?_, rfl⟩, (), c', hr, ?_, rfl⟩
    · split
      · next h => exact Access.checkField_eq_ok.2 (hf h)
      · rfl
    · split
      · next h => exact Access.checkMethod_eq_ok.2 (hm h)
      · rfl
    · cases fields <;> cases methods <;> simp [extend, addField, addMethod]

theorem field_iff {rule rule' : KeepRule} {access : Access} {type name : String} {c c' : Cursor} :
    field rule access type name c = .ok rule' c' ↔
      access.mentioned ⊆ .forField ∧ c' = c ∧
        rule' = rule.extend [{ access := access, name := some name
                               descriptor := some (Descriptor.internalType type) }] [] := by
  simp only [field, bind_eq_ok, liftModifier_eq_ok, pure_eq_ok]
  constructor
  · rintro ⟨_, _, ⟨hf, rfl⟩, rfl, rfl⟩
    exact ⟨Access.checkField_eq_ok.1 hf, rfl, by simp [extend, addField]⟩
  · rintro ⟨hf, rfl, rfl⟩
    exact ⟨(), c', ⟨Access.checkField_eq_ok.2 hf, rfl⟩, by simp [extend, addField], rfl⟩

theorem method_iff {rule rule' : KeepRule} {access : Access} {type name : String} {c c' : Cursor} :
    method rule access type name c = .ok rule' c' ↔
      access.mentioned ⊆ .forMethod ∧ ∃ arguments : List String,
        (∀ a ∈ arguments, Identifier.isPattern a = true) ∧
          c.Reads (arguments.intersperse "," ++ [")", ";"]) c' ∧
          rule' = rule.extend []
            [{ access := access, name := some name
               descriptor := some (Descriptor.internalMethod type arguments) }] := by
  simp only [method, bind_eq_ok, liftModifier_eq_ok, pure_eq_ok, argumentLoop_run_iff,
    expectSeparator_iff]
  constructor
  · rintro ⟨_, _, ⟨hf, rfl⟩, arguments, m, ⟨hp, hr⟩, _, _, hr', rfl, rfl⟩
    refine ⟨Access.checkMethod_eq_ok.1 hf, arguments, hp, ?_, by simp [extend, addMethod]⟩
    simpa using hr.append hr'
  · rintro ⟨hf, arguments, hp, hr, rfl⟩
    rw [List.append_cons] at hr
    obtain ⟨m, h₁, h₂⟩ := Cursor.Reads.append_iff.1 hr
    exact ⟨(), c, ⟨Access.checkMethod_eq_ok.2 hf, rfl⟩, arguments, m, ⟨hp, h₁⟩, (), c', h₂,
      by simp [extend, addMethod], rfl⟩

theorem namesConstructor_iff {className word : String} :
    namesConstructor className word = true ↔
      word ∈ [constructorName, className, ClassName.short className] := by
  simp [namesConstructor, or_assoc]

/-- A member whose first word is neither a wildcard nor a modifier is a field, a method or a
constructor. -/
theorem form_of_member {className : String} {rule rule' : KeepRule} {access : Access}
    {w : String} {c c' : Cursor}
    (hk : Modifier.ofMemberKeyword? (Word.stripNegator w).1 = none)
    (h : member className rule access w c = .ok rule' c') :
    ∃ f : MemberForm, f.head = w ∧ f.Valid className access ∧ c.Reads f.tail c' ∧
      rule' = rule.extend (f.fields access) (f.methods access) := by
  unfold member at h
  split at h
  · next hw =>
    obtain ⟨hf, hm, hr, rfl⟩ := wildcard_iff.1 h
    exact ⟨.any, hw.symm, ⟨hf rfl, hm rfl⟩, hr, rfl⟩
  next hw₁ =>
  split at h
  · next hw =>
    obtain ⟨hf, -, hr, rfl⟩ := wildcard_iff.1 h
    exact ⟨.anyField, hw.symm, hf rfl, hr, rfl⟩
  next hw₂ =>
  split at h
  · next hw =>
    obtain ⟨-, hm, hr, rfl⟩ := wildcard_iff.1 h
    exact ⟨.anyMethod, hw.symm, hm rfl, hr, rfl⟩
  next hw₃ =>
  simp only [bind_eq_ok, checkPattern_eq_ok, readWord_iff] at h
  obtain ⟨_, _, ⟨hp, rfl⟩, name, c₁, ⟨h₁, -⟩, h⟩ := h
  have htype : MemberForm.IsType w :=
    ⟨hp, by rwa [Word.stripNegator_of_isPattern hp] at hk, by simp [hw₁, hw₂, hw₃]⟩
  split at h
  · next hn =>
    subst hn
    split at h
    · next hc =>
      obtain ⟨hm, arguments, ha, hr, rfl⟩ := method_iff.1 h
      exact ⟨.constructor w arguments, rfl, ⟨htype, namesConstructor_iff.1 hc, ha, hm⟩,
        h₁.append hr, rfl⟩
    · exact (reject_ne_ok h).elim
  · simp only [bind_eq_ok, checkPattern_eq_ok, readWord_iff] at h
    obtain ⟨_, _, ⟨hn, rfl⟩, mark, c₂, ⟨h₂, -⟩, h⟩ := h
    split at h
    · next hmark =>
      subst hmark
      obtain ⟨hf, rfl, rfl⟩ := field_iff.1 h
      exact ⟨.field w name, rfl, ⟨htype, hn, hf⟩, h₁.append h₂, rfl⟩
    split at h
    · next hmark =>
      subst hmark
      obtain ⟨hm, arguments, ha, hr, rfl⟩ := method_iff.1 h
      exact ⟨.method w name arguments, rfl, ⟨htype, hn, ha, hm⟩, h₁.append (h₂.append hr), rfl⟩
    · exact (reject_ne_ok h).elim

/-- Reading goes past the first word of a member that is no wildcard. -/
theorem member_of_isType {className : String} {rule : KeepRule} {access : Access} {w : String}
    {c : Cursor} (hw : MemberForm.IsType w) :
    member className rule access w c = (do
      let name ← readWord .memberName
      if name = "(" then
        if namesConstructor className w then method rule access "void" constructorName
        else reject (.expectedTypeAndName w)
      else
        checkPattern name .memberName
        let mark ← readWord .memberEnd
        if mark = ";" then field rule access w name
        else if mark = "(" then method rule access w name
        else reject (.expected .memberEnd) : Parser KeepRule) c := by
  have hn := hw.notWildcard
  simp only [List.mem_cons, List.not_mem_nil, or_false, not_or] at hn
  unfold member
  rw [if_neg hn.1, if_neg hn.2.1, if_neg hn.2.2, checkPattern, if_pos hw.pattern]
  rfl

theorem ne_paren_of_isPattern {w : String} (h : Identifier.isPattern w = true) : w ≠ "(" := by
  rintro rfl
  exact Identifier.notMem_of_isPattern h (c := '(') (by decide) (by decide)

theorem member_of_form {className : String} {rule : KeepRule} {access : Access} {f : MemberForm}
    {c c' : Cursor} (hf : f.Valid className access) (hr : c.Reads f.tail c') :
    member className rule access f.head c =
      .ok (rule.extend (f.fields access) (f.methods access)) c' := by
  cases f with
  | any => exact wildcard_iff.2 ⟨fun _ => hf.1, fun _ => hf.2, hr, rfl⟩
  | anyField =>
    show member className rule access "<fields>" c = _
    unfold member
    rw [if_neg (by decide), if_pos rfl]
    exact wildcard_iff.2 ⟨fun _ => hf, nofun, hr, rfl⟩
  | anyMethod =>
    show member className rule access "<methods>" c = _
    unfold member
    rw [if_neg (by decide), if_neg (by decide), if_pos rfl]
    exact wildcard_iff.2 ⟨nofun, fun _ => hf, hr, rfl⟩
  | field type name =>
    obtain ⟨ht, hn, ha⟩ := hf
    obtain ⟨m, h₁, h₂⟩ := Cursor.Reads.cons_iff.1 hr
    rw [MemberForm.head, member_of_isType ht]
    simp only [bind_eq_ok, readWord_iff]
    refine ⟨name, m, ⟨h₁, Directive.starts_of_isPattern hn⟩, ?_⟩
    rw [if_neg (ne_paren_of_isPattern hn)]
    simp only [bind_eq_ok, checkPattern_eq_ok, readWord_iff]
    refine ⟨(), m, ⟨hn, rfl⟩, ";", c', ⟨h₂, by decide⟩, ?_⟩
    rw [if_pos rfl]
    exact field_iff.2 ⟨ha, rfl, rfl⟩
  | method type name arguments =>
    obtain ⟨ht, hn, hargs, ha⟩ := hf
    obtain ⟨m, h₁, h₂⟩ := Cursor.Reads.cons_iff.1 hr
    obtain ⟨m', h₂, h₃⟩ := Cursor.Reads.cons_iff.1 h₂
    rw [MemberForm.head, member_of_isType ht]
    simp only [bind_eq_ok, readWord_iff]
    refine ⟨name, m, ⟨h₁, Directive.starts_of_isPattern hn⟩, ?_⟩
    rw [if_neg (ne_paren_of_isPattern hn)]
    simp only [bind_eq_ok, checkPattern_eq_ok, readWord_iff]
    refine ⟨(), m, ⟨hn, rfl⟩, "(", m', ⟨h₂, by decide⟩, ?_⟩
    rw [if_neg (by decide), if_pos rfl]
    exact method_iff.2 ⟨ha, arguments, hargs, h₃, rfl⟩
  | constructor word arguments =>
    obtain ⟨ht, hw, hargs, ha⟩ := hf
    obtain ⟨m, h₁, h₂⟩ := Cursor.Reads.cons_iff.1 hr
    rw [MemberForm.head, member_of_isType ht]
    simp only [bind_eq_ok, readWord_iff]
    refine ⟨"(", m, ⟨h₁, by decide⟩, ?_⟩
    rw [if_pos rfl, if_pos (namesConstructor_iff.2 hw)]
    exact method_iff.2 ⟨ha, arguments, hargs, h₂, rfl⟩

/-! ## Blocks -/

/-- The first word of a member ends neither the modifiers before it nor the block. -/
theorem head_of_valid {className : String} {access : Access} {f : MemberForm}
    (hf : f.Valid className access) :
    Directive.starts f.head = false ∧
      Modifier.ofMemberKeyword? (Word.stripNegator f.head).1 = none ∧ f.head ≠ "\x7d" := by
  have of_type : ∀ w, MemberForm.IsType w → Directive.starts w = false ∧
      Modifier.ofMemberKeyword? (Word.stripNegator w).1 = none ∧ w ≠ "\x7d" := by
    intro w hw
    rw [Word.stripNegator_of_isPattern hw.pattern]
    refine ⟨Directive.starts_of_isPattern hw.pattern, hw.notModifier, ?_⟩
    rintro rfl
    exact Identifier.notMem_of_isPattern hw.pattern (c := '\x7d') (by decide) (by decide)
  cases f with
  | any => decide
  | anyField => decide
  | anyMethod => decide
  | field type name => exact of_type type hf.1
  | method type name arguments => exact of_type type hf.1
  | constructor word arguments => exact of_type word hf.1

theorem memberRound_iff {className : String} {rule : KeepRule} {c c' : Cursor}
    {r : Round KeepRule KeepRule} :
    memberRound className rule c = .ok r c' ↔
      (c.Reads ["\x7d"] c' ∧ r = .done rule) ∨
        ∃ m : MemberPhrase, m.Valid className ∧ c.Reads m.words c' ∧
          r = .again (rule.extend m.fields m.methods) := by
  simp only [memberRound, bind_eq_ok, modifierLoop_run_iff]
  constructor
  · rintro ⟨p, c₁, hp, h⟩
    cases p with
    | none =>
      obtain ⟨rfl, rfl⟩ := pure_eq_ok.1 h
      exact .inl ⟨hp.2, rfl⟩
    | some q =>
      obtain ⟨access, w⟩ := q
      obtain ⟨ms, hms, hcons, hr, -, hk, -, rfl⟩ := hp
      simp only [bind_eq_ok, pure_eq_ok] at h
      obtain ⟨rule', c₂, h, rfl, rfl⟩ := h
      obtain ⟨f, rfl, hf, hr', rfl⟩ := form_of_member hk h
      refine .inr ⟨⟨ms, f⟩, ⟨hms, hcons, hf⟩, ?_, rfl⟩
      simpa [MemberPhrase.words] using hr.append hr'
  · rintro (⟨hr, rfl⟩ | ⟨⟨ms, f⟩, ⟨hms, hcons, hf⟩, hr, rfl⟩)
    · exact ⟨none, c', ⟨rfl, hr⟩, pure_eq_ok.2 ⟨rfl, rfl⟩⟩
    · rw [MemberPhrase.words, List.append_cons] at hr
      obtain ⟨m, h₁, h₂⟩ := Cursor.Reads.append_iff.1 hr
      obtain ⟨hs, hk, hne⟩ := head_of_valid hf
      refine ⟨some (.ofMarks ms, f.head), m, ?_, ?_⟩
      · exact ⟨ms, hms, hcons, h₁, hs, hk, fun h => hne h.2, rfl⟩
      · simp only [bind_eq_ok, pure_eq_ok]
        exact ⟨_, c', member_of_form hf h₂, rfl, rfl⟩

theorem memberLoop_run_iff {className : String} {rule rule' : KeepRule} {c c' : Cursor} :
    (memberLoop className).run rule c = .ok rule' c' ↔
      ∃ ms : List MemberPhrase, (∀ m ∈ ms, m.Valid className) ∧
        c.Reads (ms.flatMap MemberPhrase.words ++ ["\x7d"]) c' ∧
        rule' = rule.extend (ms.flatMap MemberPhrase.fields) (ms.flatMap MemberPhrase.methods) := by
  constructor
  · intro h
    refine Loop.run_induction (P := fun rule c rule' c' => ∃ ms : List MemberPhrase,
      (∀ m ∈ ms, m.Valid className) ∧ c.Reads (ms.flatMap MemberPhrase.words ++ ["\x7d"]) c' ∧
      rule' = rule.extend (ms.flatMap MemberPhrase.fields) (ms.flatMap MemberPhrase.methods))
      ?_ ?_ h
    · intro rule c rule' c' hr
      rcases memberRound_iff.1 hr with ⟨hc, he⟩ | ⟨m, -, -, he⟩ <;> cases he
      exact ⟨[], by simp, hc, (extend_nil rule).symm⟩
    · intro rule c rule₁ c₁ rule' c' hr ih
      rcases memberRound_iff.1 hr with ⟨-, he⟩ | ⟨m, hm, hc, he⟩ <;> cases he
      obtain ⟨ms, hms, hrd, rfl⟩ := ih
      refine ⟨m :: ms, ?_, ?_, by rw [extend_extend]; rfl⟩
      · intro k hk
        rcases List.mem_cons.1 hk with rfl | hk
        · exact hm
        · exact hms k hk
      · rw [List.flatMap_cons, List.append_assoc]
        exact hc.append hrd
  · rintro ⟨ms, hms, hr, rfl⟩
    induction ms generalizing rule c with
    | nil =>
      rw [List.flatMap_nil, List.flatMap_nil, extend_nil]
      exact Loop.run_eq_ok.2 (.inl (memberRound_iff.2 (.inl ⟨hr, rfl⟩)))
    | cons m ms ih =>
      rw [List.flatMap_cons, List.append_assoc] at hr
      obtain ⟨c₁, h₁, h₂⟩ := Cursor.Reads.append_iff.1 hr
      rw [List.flatMap_cons, List.flatMap_cons, ← extend_extend]
      exact Loop.run_eq_ok.2 (.inr ⟨_, c₁, memberRound_iff.2 (.inr ⟨m, hms m List.mem_cons_self,
        h₁, rfl⟩), ih (fun k hk => hms k (List.mem_cons_of_mem _ hk)) h₂⟩)

/-! ## Rules -/

open RulePhrase (clauseWords blockWords)

theorem clause?_iff {keywords : List String} {what : Expected} {c c' : Cursor}
    {name : Option String} :
    clause? keywords what c = .ok name c' ↔
      ∃ clause : Option (String × String),
        (∀ k n, clause = some (k, n) → k ∈ keywords ∧ Identifier.isPattern n = true) ∧
          c.Takes (clauseWords clause) c' ∧
          (clause = none → ∀ k ∈ keywords, c.word ≠ some k) ∧
          name = clause.map fun q => ClassName.toInternal q.2 := by
  have any_iff : keywords.any c.is = true ↔ ∃ k ∈ keywords, c.word = some k := by
    simp [Cursor.is]
  unfold clause?
  split
  · next h =>
    obtain ⟨k, hk, hw⟩ := any_iff.1 h
    simp only [bind_eq_ok, readPattern_iff, pure_eq_ok]
    constructor
    · rintro ⟨n, m, ⟨hr, hn⟩, _, _, ha, rfl, rfl⟩
      refine ⟨some (k, n), ?_, Cursor.Takes.cons_iff.2 ⟨hw, m, hr, ha⟩, nofun, rfl⟩
      rintro k n ⟨⟩
      exact ⟨hk, hn⟩
    · rintro ⟨clause, hv, ht, hne, rfl⟩
      cases clause with
      | none => exact absurd hw (hne rfl k hk)
      | some q =>
        obtain ⟨k', n⟩ := q
        obtain ⟨-, m, hr, ha⟩ := Cursor.Takes.cons_iff.1 ht
        exact ⟨n, m, ⟨hr, (hv k' n rfl).2⟩, (), c', ha, rfl, rfl⟩
  · next h =>
    have hne : ∀ k ∈ keywords, c.word ≠ some k := fun k hk hw => h (any_iff.2 ⟨k, hk, hw⟩)
    simp only [EStateM.Result.ok.injEq]
    constructor
    · rintro ⟨rfl, rfl⟩
      exact ⟨none, nofun, .nil, fun _ => hne, rfl⟩
    · rintro ⟨clause, hv, ht, -, rfl⟩
      cases clause with
      | none => exact ⟨rfl, (Cursor.Takes.nil_iff.1 ht).symm⟩
      | some q =>
        obtain ⟨k, n⟩ := q
        exact absurd ht.word (hne k (hv k n rfl).1)

theorem block_iff {className : String} {rule rule' : KeepRule} {c c' : Cursor} :
    block className rule c = .ok rule' c' ↔
      ∃ ms : Option (List MemberPhrase), (∀ m ∈ ms.getD [], m.Valid className) ∧
        c.Takes (blockWords ms) c' ∧ (ms = none → c.atEnd = true) ∧
        rule' = rule.extend ((ms.getD []).flatMap MemberPhrase.fields)
          ((ms.getD []).flatMap MemberPhrase.methods) := by
  simp only [block, bind_eq_ok, atEnd_eq_ok]
  constructor
  · rintro ⟨b, _, ⟨hb, rfl⟩, h⟩
    split at h
    · next he =>
      obtain ⟨rfl, rfl⟩ := pure_eq_ok.1 h
      exact ⟨none, by simp, .nil, fun _ => hb.trans he, (extend_nil rule).symm⟩
    · simp only [bind_eq_ok, isAt_eq_ok] at h
      obtain ⟨b', _, ⟨hb', rfl⟩, h⟩ := h
      split at h
      · next hopen =>
        simp only [bind_eq_ok, memberLoop_run_iff, pure_eq_ok] at h
        obtain ⟨rule₁, m, ⟨ms, hms, hr, rfl⟩, _, _, ha, rfl, rfl⟩ := h
        have hw : c.word = some "\x7b" := by simpa [Cursor.is, hopen] using hb'
        refine ⟨some ms, hms, Cursor.Takes.cons_iff.2 ⟨hw, m, hr, ha⟩, fun he => ?_, rfl⟩
        cases he
      · exact (reject_ne_ok h).elim
  · rintro ⟨ms, hms, ht, hend, rfl⟩
    cases ms with
    | none =>
      rw [Cursor.Takes.nil_iff.1 ht]
      refine ⟨true, c, ⟨hend rfl, rfl⟩, ?_⟩
      rw [if_pos rfl]
      exact pure_eq_ok.2 ⟨(extend_nil rule).symm, rfl⟩
    | some ms =>
      obtain ⟨hw, m, hr, ha⟩ := Cursor.Takes.cons_iff.1 ht
      refine ⟨false, c, ⟨by rw [Cursor.atEnd, hw]; decide, rfl⟩, ?_⟩
      rw [if_neg (by decide)]
      simp only [bind_eq_ok, isAt_eq_ok]
      refine ⟨true, c, ⟨by simp [Cursor.is, hw], rfl⟩, ?_⟩
      rw [if_pos rfl]
      simp only [bind_eq_ok, memberLoop_run_iff, pure_eq_ok]
      exact ⟨_, m, ⟨ms, hms, hr, rfl⟩, (), c', ha, rfl, rfl⟩

/-- No keyword of an optional clause follows where the directive or a block comes next. -/
theorem word_ne_of_takes_block {ms : Option (List MemberPhrase)} {c c' : Cursor}
    (ht : c.Takes (blockWords ms) c') (hend : ms = none → c'.atEnd = true) {k : String}
    (hk : k ∈ ["extends", "implements", "as"]) : c.word ≠ some k := by
  intro hw
  cases ms with
  | none =>
    have he := hend rfl
    rw [Cursor.Takes.nil_iff.1 ht, Cursor.atEnd, hw] at he
    have : ∀ k ∈ ["extends", "implements", "as"], Directive.starts k = false := by decide
    simp [this k hk] at he
  | some ms =>
    rw [ht.word] at hw
    cases hw
    revert hk
    decide

/-- A rule is read exactly if its words are those of a valid phrase, and if, unless a block closes
it, the directive ends after them. -/
theorem parser_iff {intent : KeepIntent} {comments : Option String} {rule : KeepRule}
    {c c' : Cursor} :
    parser intent comments c = .ok rule c' ↔
      ∃ p : RulePhrase, p.Valid ∧ c.Passes p.words c' ∧ (p.block = none → c'.atEnd = true) ∧
        rule = p.rule intent comments := by
  simp only [parser, bind_eq_ok, classLoop_run_iff, readPattern_iff, clause?_iff, block_iff]
  constructor
  · rintro ⟨a, c₁, ⟨ms, kind, hms, hcons, h₁, rfl⟩, name, c₂, ⟨h₂, hn⟩, _, c₃, h₃,
      _, c₄, ⟨parent, hparent, ht₄, -, rfl⟩, _, c₅, ⟨clause, hclause, ht₅, -, rfl⟩,
      block, hmem, ht, hend, rfl⟩
    have hhead : c.Passes (ms.map Mark.word ++ [kind.word, name]) c₃ :=
      ⟨c₂, by simpa using h₁.append h₂, h₃⟩
    obtain ⟨newName, rfl⟩ : ∃ n : Option String, clause = n.map fun name => ("as", name) := by
      cases clause with
      | none => exact ⟨none, rfl⟩
      | some q =>
        obtain ⟨k, n⟩ := q
        obtain rfl : k = "as" := by simpa using (hclause k n rfl).1
        exact ⟨some n, rfl⟩
    refine ⟨⟨ms, kind, name, parent, newName, block⟩, ⟨hms, hcons, hn, fun k n h => ?_,
      fun n h => ?_, hmem⟩, ?_, fun h => ?_, ?_⟩
    · exact ⟨by simpa [or_comm] using (hparent k n h).1, (hparent k n h).2⟩
    · exact (hclause "as" n (congrArg (Option.map _) h)).2
    · exact Cursor.Passes.takes_iff.2 ⟨c₃, hhead, Cursor.Takes.append_iff.2 ⟨c₄, ht₄,
        Cursor.Takes.append_iff.2 ⟨c₅, ht₅, ht⟩⟩⟩
    · obtain rfl : block = none := h
      rw [Cursor.Takes.nil_iff.1 ht]
      exact hend rfl
    · simp [extend, RulePhrase.rule, RulePhrase.members, Function.comp_def]
  · rintro ⟨⟨ms, kind, name, parent, newName, block⟩, ⟨hms, hcons, hn, hparent, hnew, hmem⟩, hp,
      hend, rfl⟩
    obtain ⟨c₃, ⟨c₂, hr, ha⟩, ht⟩ := Cursor.Passes.takes_iff.1 hp
    rw [RulePhrase.headWords, List.append_cons] at hr
    obtain ⟨c₁, h₁, h₂⟩ := Cursor.Reads.append_iff.1 hr
    obtain ⟨c₄, ht₄, ht⟩ := Cursor.Takes.append_iff.1 ht
    obtain ⟨c₅, ht₅, ht⟩ := Cursor.Takes.append_iff.1 ht
    refine ⟨_, c₁, ⟨ms, kind, hms, hcons, h₁, rfl⟩, name, c₂, ⟨h₂, hn⟩, (), c₃, ha,
      _, c₄, ⟨parent, fun k n h => ?_, ht₄, fun h k hk => ?_, rfl⟩,
      _, c₅, ⟨newName.map fun name => ("as", name), fun k n h => ?_, ht₅, fun h k hk => ?_, rfl⟩,
      block, hmem, ht, fun h => ?_, ?_⟩
    · exact ⟨by simpa [or_comm] using (hparent k n h).1, (hparent k n h).2⟩
    · obtain rfl : parent = none := h
      obtain rfl := Cursor.Takes.nil_iff.1 ht₄
      cases newName with
      | none =>
        obtain rfl := Cursor.Takes.nil_iff.1 ht₅
        exact word_ne_of_takes_block ht hend (by revert k; decide)
      | some n =>
        rw [ht₅.word]
        revert k
        decide
    · cases newName with
      | none => cases h
      | some m =>
        cases h
        exact ⟨by simp, hnew n rfl⟩
    · cases newName with
      | none =>
        obtain rfl := Cursor.Takes.nil_iff.1 ht₅
        exact word_ne_of_takes_block ht hend (by revert k; decide)
      | some n => cases h
    · obtain rfl : block = none := h
      rw [← Cursor.Takes.nil_iff.1 ht]
      exact hend rfl
    · simp [extend, RulePhrase.rule, RulePhrase.members, Function.comp_def]

/-- A rule has at least one word. -/
theorem parser_of_ahead_nil {intent : KeepIntent} {comments : Option String} {c : Cursor}
    (h : c.Ahead []) : ∃ e c', parser intent comments c = .error e c' := by
  cases hp : parser intent comments c with
  | error e c' => exact ⟨e, c', rfl⟩
  | ok rule c' =>
    obtain ⟨p, -, hpass, -⟩ := parser_iff.1 hp
    obtain ⟨rest, hwords, -⟩ := hpass.ahead h
    exact absurd (List.append_eq_nil_iff.1 hwords.symm).1 p.words_ne_nil

/-- Of the words ahead, a rule takes those of a valid phrase from the front, and stops at the rest.
Without a block, that is the end of the directive. -/
theorem parser_ok_iff_derives {intent : KeepIntent} {comments : Option String} {rule : KeepRule}
    {c : Cursor} {ws : List String} (h : c.Ahead ws) :
    ((∃ c', parser intent comments c = .ok rule c') ↔
      ∃ (p : RulePhrase) (rest : List String), p.Derives ws rest ∧
        rule = p.rule intent comments) ∧
    ∀ c', parser intent comments c = .ok rule c' →
      ∃ (p : RulePhrase) (rest : List String), p.Derives ws rest ∧
        rule = p.rule intent comments ∧ c'.At rest := by
  have sound : ∀ c', parser intent comments c = .ok rule c' →
      ∃ (p : RulePhrase) (rest : List String), p.Derives ws rest ∧
        rule = p.rule intent comments ∧ c'.At rest := by
    intro c' hp
    obtain ⟨p, hv, hpass, hend, rfl⟩ := parser_iff.1 hp
    obtain ⟨rest, rfl, hat⟩ := hpass.ahead h
    exact ⟨p, rest, ⟨hv, rfl, fun hb => hat.atEnd ▸ hend hb⟩, rfl, hat⟩
  refine ⟨⟨?_, ?_⟩, sound⟩
  · rintro ⟨c', hp⟩
    obtain ⟨p, rest, hd, hr, -⟩ := sound c' hp
    exact ⟨p, rest, hd, hr⟩
  · rintro ⟨p, rest, ⟨hv, rfl, hend⟩, rfl⟩
    obtain ⟨c', hpass, hat⟩ := h.passes
    exact ⟨c', parser_iff.2 ⟨p, hv, hpass, fun hb => hat.atEnd ▸ hend hb, rfl⟩⟩

theorem parser_ok_public_class :
    ∃ c' : Cursor, parser .keep none
      { reader :=
          { top :=
              { source := { origin := .arguments, unread := [] }
                words := ["public", "class", "a.B", "\x7b", "int", "n", ";", "\x7d", "-verbose"] }
            separator := ':', limit := 0 }
        word := some "-keep" } =
      .ok
        { access := { required := .singleton .accPublic }
          className := some "a/B"
          intent := .keep
          fields := [{ access := {}, name := some "n", descriptor := some "I" }] } c' := by
  refine (parser_ok_iff_derives ⟨rfl, by simp [Reader.Faultless]⟩).1.2
    ⟨⟨[⟨.accPublic, true⟩], .ofClass, "a.B", none, none, some [⟨[], .field "int" "n"⟩]⟩,
      ["-verbose"], ⟨⟨?_, ?_, ?_, nofun, nofun, ?_⟩, rfl, nofun⟩, ?_⟩
  · decide
  · intro m _
    simp
  · decide
  · intro m hm
    obtain rfl := List.mem_singleton.1 hm
    exact ⟨nofun, nofun, ⟨by decide, by decide, by decide⟩, by decide, by decide⟩
  · decide

end KeepRule

end KeepRules
