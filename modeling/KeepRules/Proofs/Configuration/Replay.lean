import KeepRules.Proofs.Configuration.Steps

/-! # Reading again above other sources

What is read while a source stays open depends on that source and on those above it, and not on
what lies below. So it can be read again when the source is opened once more, on top of others.

* `Reader.Later`: reading takes sources off the stack, and reads in the innermost of those left; the
  others are as they were.
* `Rebased`: cursors with the same sources open above different ones.
* `Rebased.advance`, `Rebased.reads`, `Rebased.passes`: what the first cursor reads without coming
  down to the sources below, the second reads as well. -/

set_option autoImplicit false

namespace KeepRules

open KeepRules.Parser

theorem Source.origin_of_ofFile {host : Host} {name : String} {source : Source}
    (h : Source.ofFile host name = .ok source) : source.origin = .file name := by
  unfold Source.ofFile at h
  split at h
  · next content _ =>
    cases h
    cases content <;> rfl
  · cases h

theorem Frame.origin_of_next {separator : Char} {f f' : Frame} {word : Option String}
    (h : f.next separator = .ok word f') : f'.source.origin = f.source.origin := by
  fun_induction Frame.next separator f with
  | case1 => cases h; rfl
  | case2 => cases h
  | case3 f hw source hl =>
    cases h
    rw [(Source.unread_of_nextLine_none hl).1]
  | case4 f hw line source hl words comment hs ih =>
    exact (ih h).trans (Source.unread_of_nextLine_some hl).2.1

theorem Frame.origin_of_next_error {separator : Char} {f f' : Frame} {fault : IoFault}
    (h : f.next separator = .error fault f') :
    f'.source.origin = f.source.origin ∧ f'.source.fault = f.source.fault := by
  fun_induction Frame.next separator f with
  | case1 => cases h
  | case2 f hw fault' source hl =>
    cases h
    unfold Source.nextLine at hl
    split at hl
    · split at hl
      · cases hl
      · cases hl
        exact ⟨rfl, rfl⟩
    · cases hl
      exact ⟨rfl, rfl⟩
    · cases hl
  | case3 => cases h
  | case4 f hw line source hl words comment hs ih =>
    obtain ⟨-, ho, hf, -⟩ := Source.unread_of_nextLine_some hl
    exact ⟨(ih h).1.trans ho, (ih h).2.trans hf⟩

theorem Drops.not_append (a s : List Nat) : ¬Drops a (a ++ s) := by
  induction a with
  | nil => nofun
  | cons x a ih =>
    intro h
    cases h with
    | here hlt => exact Nat.lt_irrefl x hlt
    | later h => exact ih h

namespace Reader

/-- These are the lower sources of the reader, and another one is above them. -/
def Above (lower : List Frame) (r : Reader) : Prop := ∃ upper, upper ≠ [] ∧ r.stack = upper ++ lower

theorem above_of_stack {r : Reader} {upper lower : List Frame} {f : Frame}
    (h : r.stack = upper ++ f :: lower) : r.Above lower :=
  ⟨upper ++ [f], by simp, by rw [h, List.append_assoc]; rfl⟩

/-- Going on from `r`, without includes, a reader may be in the state `r'`. -/
structure Later (r' r : Reader) : Prop where
  separator : r'.separator = r.separator
  limit : r'.limit = r.limit
  sources : ∀ {upper f lower}, r'.stack = upper ++ f :: lower →
    ∃ upper₀ f₀, r.stack = upper₀ ++ f₀ :: lower ∧ f₀.source.origin = f.source.origin

namespace Later

theorem refl (r : Reader) : Later r r := ⟨rfl, rfl, fun h => ⟨_, _, h, rfl⟩⟩

theorem trans {a b c : Reader} (h : Later a b) (h' : Later b c) : Later a c where
  separator := h.separator.trans h'.separator
  limit := h.limit.trans h'.limit
  sources hs := by
    obtain ⟨upper₁, f₁, hs₁, ho₁⟩ := h.sources hs
    obtain ⟨upper₀, f₀, hs₀, ho₀⟩ := h'.sources hs₁
    exact ⟨upper₀, f₀, hs₀, ho₀.trans ho₁⟩

/-- Only the innermost source has changed. -/
theorem of_top {r' r : Reader} (hseparator : r'.separator = r.separator)
    (hlimit : r'.limit = r.limit) (hbelow : r'.below = r.below)
    (ho : r'.top.source.origin = r.top.source.origin) : Later r' r where
  separator := hseparator
  limit := hlimit
  sources := by
    intro upper f lower hs
    rw [stack, hbelow] at hs
    cases upper with
    | nil =>
      obtain ⟨rfl, hl⟩ := List.cons.inj hs
      exact ⟨[], r.top, congrArg (List.cons r.top) hl, ho.symm⟩
    | cons g upper =>
      obtain ⟨-, hl⟩ := List.cons.inj hs
      exact ⟨r.top :: upper, f, congrArg (List.cons r.top) hl, rfl⟩

theorem of_next {r r' : Reader} {word : Option String} (h : r.next = .ok word r') :
    Later r' r := by
  fun_induction next r with
  | case1 => simp at h
  | case2 r w top ht =>
    cases h
    exact of_top rfl rfl rfl (Frame.origin_of_next ht)
  | case3 r top ht hb =>
    cases h
    exact of_top rfl rfl rfl (Frame.origin_of_next ht)
  | case4 r top ht frame below hb ih =>
    refine (ih h).trans ⟨rfl, rfl, fun {upper f lower} hs => ⟨r.top :: upper, f, ?_, rfl⟩⟩
    rw [stack, hb, List.cons_append, ← hs]
    rfl

theorem above {r' r : Reader} {lower : List Frame} (h : Later r' r) (hr : r'.Above lower) :
    r.Above lower := by
  obtain ⟨upper, hne, hs⟩ := hr
  obtain ⟨upper, f, rfl⟩ := (List.eq_nil_or_concat upper).resolve_left hne
  rw [List.concat_eq_append, List.append_assoc] at hs
  obtain ⟨upper₀, f₀, hs₀, -⟩ := h.sources hs
  exact above_of_stack hs₀

theorem follows {settings : Settings} {r' r : Reader} (h : Later r' r)
    (hr : r.Follows settings) : r'.Follows settings :=
  ⟨h.separator.trans hr.1, h.limit.trans hr.2⟩

end Later

/-- A read that gives a word changes the source that it comes from. -/
theorem not_suffix_of_next {r r' : Reader} {w : String} (h : r.next = .ok (some w) r') :
    ¬r'.stack <:+ r.stack := by
  rintro ⟨upper, hs⟩
  have hd := (before_of_next h).drops
  have he : r.sizes = r'.sizes ++
      (upper.map fun f => (f.ahead r.separator).length).reverse := by
    rw [sizes, sizes, separator_of_next h, ← List.reverse_append, ← List.map_append]
    exact congrArg (fun s => (s.map fun f => (f.ahead r.separator).length).reverse) hs.symm
  rw [he] at hd
  exact Drops.not_append _ _ hd

/-- A read that stays above the lower sources does not depend on them. -/
theorem next_of_above {settings : Settings} {lower lower' : List Frame} {r r₁ r' : Reader}
    {w : String} {upper upper₁ : List Frame} (hr : r.Follows settings) (hr' : r'.Follows settings)
    (hs : r.stack = upper ++ lower) (hs' : r'.stack = upper ++ lower') (hne : upper ≠ [])
    (h : r.next = .ok (some w) r₁) (hne₁ : upper₁ ≠ []) (hs₁ : r₁.stack = upper₁ ++ lower) :
    ∃ r₁', r'.next = .ok (some w) r₁' ∧ r₁'.stack = upper₁ ++ lower' := by
  induction upper generalizing r r' with
  | nil => exact absurd rfl hne
  | cons f upper ih =>
    obtain ⟨htop, hbelow⟩ := List.cons.inj hs
    obtain ⟨htop', hbelow'⟩ := List.cons.inj hs'
    cases hn : f.next settings.pathSeparator with
    | error fault g =>
      rw [next_of_error (by rw [htop, hr.1, hn])] at h
      cases h
    | ok word g =>
      cases word with
      | some v =>
        rw [next_of_some (by rw [htop, hr.1, hn])] at h
        cases h
        refine ⟨_, next_of_some (by rw [htop', hr'.1, hn]), ?_⟩
        obtain rfl : g :: upper = upper₁ := by
          refine (List.append_left_inj lower).1 (hs₁ ▸ ?_)
          rw [stack, hbelow]
          rfl
        rw [stack, hbelow']
        rfl
      | none =>
        cases upper with
        | nil =>
          -- the read comes down to the lower sources, and none is put above them again
          exfalso
          cases lower with
          | nil =>
            rw [next_of_none hbelow (by rw [htop, hr.1, hn])] at h
            cases h
          | cons g₁ lower =>
            rw [next_of_pop (r := r) (by rw [htop, hr.1, hn]) hbelow] at h
            have hd := depth_of_next h
            have hlength := congrArg List.length hs₁
            have hpos := List.length_pos_iff.2 hne₁
            simp only [stack, List.length_cons, List.length_append, depth] at hd hlength
            omega
        | cons g₁ upper =>
          have hpop := next_of_pop (r := r) (by rw [htop, hr.1, hn]) hbelow
          have hpop' := next_of_pop (r := r') (by rw [htop', hr'.1, hn]) hbelow'
          rw [hpop] at h
          rw [hpop']
          refine ih ?_ ?_ rfl rfl (List.cons_ne_nil _ _) h
          · exact hr
          · exact hr'

end Reader

/-! ## Cursors -/

namespace Cursor

theorem Reads.later {c c' : Cursor} {ws : List String} (h : c.Reads ws c') :
    c'.reader.Later c.reader := by
  induction h with
  | nil => exact .refl _
  | cons ha _ _ ih => exact ih.trans (.of_next (advance_eq_ok.1 ha))

theorem Passes.later {c c' : Cursor} {ws : List String} (h : c.Passes ws c') :
    c'.reader.Later c.reader := by
  obtain ⟨m, hm, ha⟩ := h
  exact (Reader.Later.of_next (advance_eq_ok.1 ha)).trans hm.later

/-- The word comes from a source that has changed, so the reader is not back at the lower ones. -/
theorem Reads.stack_ne {c c' : Cursor} {w : String} {lower : List Frame} (h : c.Reads [w] c')
    (hc : c.reader.Above lower) : c'.reader.stack ≠ lower := by
  rintro rfl
  obtain ⟨ha, hw⟩ := Reads.singleton_iff.1 h
  have hn := advance_eq_ok.1 ha
  rw [hw] at hn
  obtain ⟨upper, -, hs⟩ := hc
  exact Reader.not_suffix_of_next hn ⟨upper, hs.symm⟩

end Cursor

namespace Configuration

theorem later_dispatched (c : Cursor) (keyword word : String) :
    (dispatched c keyword word).reader.Later c.reader := .of_top rfl rfl rfl rfl

section
variable {ctx : Context} {c c₁ : Cursor} {name : String}

theorem Includes.reads (h : Includes ctx c name c₁) :
    ∃ word keyword v, (dispatched c keyword word).Reads [v] c₁ := by
  obtain ⟨word, keyword, -, -, v, hr, -⟩ := h
  exact ⟨word, keyword, v, (readWord_iff.1 hr).1⟩

theorem Includes.later (h : Includes ctx c name c₁) : c₁.reader.Later c.reader := by
  obtain ⟨word, keyword, v, hr⟩ := h.reads
  exact hr.later.trans (later_dispatched c keyword word)

end

theorem Proceeds.follows {ctx : Context} {settings : Settings} {c c' : Cursor}
    (h : Proceeds ctx c c') (hc : c.reader.Follows settings) : c'.reader.Follows settings := by
  cases h with
  | @words word keyword d ws _ _ hp _ =>
    exact (hp.later.trans (later_dispatched c keyword word)).follows hc
  | inclusion hincludes _ he ha =>
    have he := entered_of_enter (hincludes.later.follows hc) he
    exact he.follows.next (Cursor.advance_eq_ok.1 ha)

end Configuration

/-- Cursors at the same place, with the same sources open above different ones. -/
structure Rebased (settings : Settings) (lower lower' : List Frame) (c c' : Cursor) : Prop where
  word : c'.word = c.word
  follows : c.reader.Follows settings
  follows' : c'.reader.Follows settings
  frames : ∃ upper, upper ≠ [] ∧ c.reader.stack = upper ++ lower ∧
    c'.reader.stack = upper ++ lower'

namespace Rebased

variable {settings : Settings} {lower lower' : List Frame} {c c' c₁ : Cursor}

theorem refl (hc : c.reader.Follows settings) (h : c.reader.Above lower) :
    Rebased settings lower lower c c := by
  obtain ⟨upper, hne, hs⟩ := h
  exact ⟨rfl, hc, hc, upper, hne, hs, hs⟩

theorem advance (h : Rebased settings lower lower' c c') {w : String}
    (ha : Parser.advance c = .ok () c₁) (hw : c₁.word = some w) (hc₁ : c₁.reader.Above lower) :
    ∃ c₁', Parser.advance c' = .ok () c₁' ∧ Rebased settings lower lower' c₁ c₁' := by
  obtain ⟨-, hr, hr', upper, hne, hs, hs'⟩ := h
  obtain ⟨upper₁, hne₁, hs₁⟩ := hc₁
  have hn := Cursor.advance_eq_ok.1 ha
  rw [hw] at hn
  obtain ⟨r₁', hn', hs₁'⟩ := Reader.next_of_above hr hr' hs hs' hne hn hne₁ hs₁
  refine ⟨⟨r₁', some w⟩, Cursor.advance_eq_ok.2 hn', hw.symm, hr.next hn, hr'.next hn', ?_⟩
  exact ⟨upper₁, hne₁, hs₁, hs₁'⟩

theorem reads (h : Rebased settings lower lower' c c') {ws : List String} (hr : c.Reads ws c₁)
    (hc₁ : c₁.reader.Above lower) :
    ∃ c₁', c'.Reads ws c₁' ∧ Rebased settings lower lower' c₁ c₁' := by
  induction hr generalizing c' with
  | nil => exact ⟨c', .nil, h⟩
  | cons ha hw hr ih =>
    obtain ⟨m', ha', hm⟩ := h.advance ha hw (hr.later.above hc₁)
    obtain ⟨c₁', hr', h₁⟩ := ih hm hc₁
    exact ⟨c₁', .cons ha' (hm.word.trans hw) hr', h₁⟩

theorem passes (h : Rebased settings lower lower' c c') {ws : List String} {w : String}
    (hp : c.Passes ws c₁) (hw : c₁.word = some w) (hc₁ : c₁.reader.Above lower) :
    ∃ c₁', c'.Passes ws c₁' ∧ Rebased settings lower lower' c₁ c₁' := by
  obtain ⟨m, hm, ha⟩ := hp
  have hl := Reader.Later.of_next (Cursor.advance_eq_ok.1 ha)
  obtain ⟨m', hm', h₁⟩ := h.reads hm (hl.above hc₁)
  obtain ⟨c₁', ha', h₂⟩ := h₁.advance ha hw hc₁
  exact ⟨c₁', ⟨m', hm', ha'⟩, h₂⟩

theorem dispatched (h : Rebased settings lower lower' c c') (keyword word : String) :
    Rebased settings lower lower' (Configuration.dispatched c keyword word)
      (Configuration.dispatched c' keyword word) := by
  obtain ⟨hw, hr, hr', upper, hne, hs, hs'⟩ := h
  refine ⟨hw, hr, hr', ?_⟩
  cases upper with
  | nil => exact absurd rfl hne
  | cons f upper =>
    obtain ⟨htop, hbelow⟩ := List.cons.inj hs
    obtain ⟨htop', hbelow'⟩ := List.cons.inj hs'
    refine ⟨{ f with comments := none } :: upper, List.cons_ne_nil _ _, ?_, ?_⟩
    · show { c.reader.top with comments := none } :: c.reader.below = _
      rw [htop, hbelow]
      rfl
    · show { c'.reader.top with comments := none } :: c'.reader.below = _
      rw [htop', hbelow']
      rfl

theorem above (h : Rebased settings lower lower' c c') : c.reader.Above lower := by
  obtain ⟨upper, hne, hs, -⟩ := h.frames
  exact ⟨upper, hne, hs⟩

theorem entered (h : Rebased settings lower lower' c c') {source : Source} {d d' : Cursor}
    (hd : Configuration.Entered settings source c d)
    (hd' : Configuration.Entered settings source c' d') : Rebased settings lower lower' d d' := by
  obtain ⟨upper, -, hs, hs'⟩ := h.frames
  refine ⟨?_, hd.follows, hd'.follows, { source := source } :: upper, List.cons_ne_nil _ _, ?_, ?_⟩
  · rw [hd.word, hd'.word, h.word]
  · rw [hd.stack, hs]
    rfl
  · rw [hd'.stack, hs']
    rfl

end Rebased

end KeepRules
