import KeepRules.Proofs.Configuration.Agreement
import KeepRules.Proofs.Lines

/-! # Sources on different foundations

Two readers may have the same included sources open, on top of different sources below. They read
the same words as long as the lower sources do.

* `Foundation`: how the lower sources of two readers correspond, and what is known when both come
  to the end of what they have in common.
* `Foundation.pairing`: such readers are paired, hence two runs over them go in step
  (`Configuration.run_of_paired`). Where the stacks may differ in height, the pairing is lenient. -/

set_option autoImplicit false

namespace KeepRules

open KeepRules.Parser

/-- How the lower sources of two readers correspond. -/
structure Foundation (settings : Settings) (shown : Option String → Option String)
    (lenient : Prop) where
  Rel : List Frame → List Frame → Prop
  Beyond : Cursor → Cursor → Prop
  ne_nil : ∀ {b b' : List Frame}, Rel b b' → b ≠ [] ∧ b' ≠ []
  next : ∀ {r r' : Reader}, r.Follows settings → r'.Follows settings → Rel r.stack r'.stack →
    ∃ word word' r₁ r₁', r.next = .ok word r₁ ∧ r'.next = .ok word' r₁' ∧
      ((∃ w, word = some w ∧ word' = some w) ∧ Rel r₁.stack r₁'.stack ∨
        Beyond ⟨r₁, word⟩ ⟨r₁', word'⟩)
  ended : ∀ {c c' : Cursor}, Beyond c c' → c.atEnd = true ∧ c'.atEnd = true
  comments : ∀ {f f' : Frame} {b b' : List Frame}, Rel (f :: b) (f' :: b') →
    shown f'.comments = shown f.comments
  takes : ∀ {f f' : Frame} {b b' : List Frame}, Rel (f :: b) (f' :: b') →
    Rel ({ f with comments := none } :: b) ({ f' with comments := none } :: b')
  height : lenient ∨ ∀ {b b' : List Frame}, Rel b b' → b'.length = b.length

/-- Both readings have come to their ends. -/
theorem Cursor.atEnd_of_none {c c' : Cursor} (h : c.word = none ∧ c'.word = none) :
    c.atEnd = true ∧ c'.atEnd = true := by
  rw [atEnd, atEnd, h.1, h.2]
  exact ⟨rfl, rfl⟩

namespace Foundation

variable {settings : Settings} {shown : Option String → Option String} {lenient : Prop}

/-- The same sources are open above corresponding ones. -/
structure Over (F : Foundation settings shown lenient) (r r' : Reader) : Prop where
  follows : r.Follows settings
  follows' : r'.Follows settings
  frames : ∃ upper b b', r.stack = upper ++ b ∧ r'.stack = upper ++ b' ∧ F.Rel b b'

/-- What reading on comes to: the same word or the same error, or the end of what is common. -/
def ReadsAlike (F : Foundation settings shown lenient) (r r' : Reader) : Prop :=
  (∃ e r₁ r₁', r.next = .error e r₁ ∧ r'.next = .error e r₁') ∨
    ∃ word word' r₁ r₁', r.next = .ok word r₁ ∧ r'.next = .ok word' r₁' ∧
      ((∃ w, word = some w ∧ word' = some w) ∧ F.Over r₁ r₁' ∨ F.Beyond ⟨r₁, word⟩ ⟨r₁', word'⟩)

variable (F : Foundation settings shown lenient)

theorem readsAlike_of_rel {r r' : Reader} (hs : r.Follows settings) (hs' : r'.Follows settings)
    (h : F.Rel r.stack r'.stack) : F.ReadsAlike r r' := by
  obtain ⟨word, word', r₁, r₁', hn, hn', hw⟩ := F.next hs hs' h
  refine .inr ⟨word, word', r₁, r₁', hn, hn', hw.imp_left fun hw => ⟨hw.1, ?_⟩⟩
  exact ⟨hs.next hn, hs'.next hn', [], _, _, rfl, rfl, hw.2⟩

theorem Over.next {r r' : Reader} (h : F.Over r r') : F.ReadsAlike r r' := by
  obtain ⟨hs, hs', upper, b, b', hr, hr', hb⟩ := h
  induction upper generalizing r r' with
  | nil =>
    rw [List.nil_append] at hr hr'
    exact F.readsAlike_of_rel hs hs' (hr ▸ hr' ▸ hb)
  | cons f upper ih =>
    obtain ⟨htop, hbelow⟩ := List.cons.inj hr
    obtain ⟨htop', hbelow'⟩ := List.cons.inj hr'
    -- the top source is the same in both readers
    cases hn : f.next settings.pathSeparator with
    | error fault g =>
      have h₁ := Reader.next_of_error (r := r) (by rw [htop, hs.1, hn])
      have h₁' := Reader.next_of_error (r := r') (by rw [htop', hs'.1, hn])
      exact .inl ⟨_, _, _, h₁, h₁'⟩
    | ok word g =>
      cases word with
      | some w =>
        have h₁ := Reader.next_of_some (r := r) (by rw [htop, hs.1, hn])
        have h₁' := Reader.next_of_some (r := r') (by rw [htop', hs'.1, hn])
        refine .inr ⟨_, _, _, _, h₁, h₁', .inl ⟨⟨w, rfl, rfl⟩, hs, hs', ?_⟩⟩
        refine ⟨g :: upper, b, b', ?_, ?_, hb⟩
        · rw [Reader.stack, hbelow]
          rfl
        · rw [Reader.stack, hbelow']
          rfl
      | none =>
        obtain ⟨g₁, rest, he⟩ : ∃ g₁ rest, upper ++ b = g₁ :: rest :=
          List.exists_cons_of_ne_nil fun he => (F.ne_nil hb).1 (List.append_eq_nil_iff.1 he).2
        obtain ⟨g₁', rest', he'⟩ : ∃ g₁ rest, upper ++ b' = g₁ :: rest :=
          List.exists_cons_of_ne_nil fun he => (F.ne_nil hb).2 (List.append_eq_nil_iff.1 he).2
        have h₁ := Reader.next_of_pop (r := r) (by rw [htop, hs.1, hn]) (hbelow.trans he)
        have h₁' := Reader.next_of_pop (r := r') (by rw [htop', hs'.1, hn]) (hbelow'.trans he')
        unfold ReadsAlike
        rw [h₁, h₁']
        exact ih hs hs' he.symm he'.symm

theorem Over.comments {r r' : Reader} (h : F.Over r r') :
    shown r'.top.comments = shown r.top.comments := by
  obtain ⟨-, -, upper, b, b', hr, hr', hb⟩ := h
  cases upper with
  | nil =>
    rw [List.nil_append] at hr hr'
    rw [← hr, ← hr'] at hb
    exact F.comments hb
  | cons f upper =>
    rw [(List.cons.inj hr).1, (List.cons.inj hr').1]

/-- Dispatching a directive takes the comments of the innermost source, in both readers. -/
theorem Over.takes {r r' : Reader} (h : F.Over r r') (event event' : Event) :
    F.Over (r.takeComments.2.record event) (r'.takeComments.2.record event') := by
  obtain ⟨hs, hs', upper, b, b', hr, hr', hb⟩ := h
  refine ⟨hs, hs', ?_⟩
  cases upper with
  | nil =>
    rw [List.nil_append] at hr hr'
    rw [← hr, ← hr'] at hb
    exact ⟨[], _, _, rfl, rfl, F.takes hb⟩
  | cons f upper =>
    obtain ⟨htop, hbelow⟩ := List.cons.inj hr
    obtain ⟨htop', hbelow'⟩ := List.cons.inj hr'
    refine ⟨{ f with comments := none } :: upper, b, b', ?_, ?_, hb⟩
    · show { r.top with comments := none } :: r.below = _
      rw [htop, hbelow]
      rfl
    · show { r'.top with comments := none } :: r'.below = _
      rw [htop', hbelow']
      rfl

/-- The words of the readers correspond, and so do the readers. -/
def Within (c c' : Cursor) : Prop :=
  (∃ w, c.word = some w ∧ c'.word = some w) ∧ F.Over c.reader c'.reader

theorem advance_of_within :
    Respects F.Within advance fun _ c c' => F.Within c c' ∨ F.Beyond c c' := by
  rintro c c' ⟨-, h⟩
  unfold advance
  rcases h.next with ⟨e, r₁, r₁', hn, hn'⟩ | ⟨word, word', r₁, r₁', hn, hn', h₁⟩
  · rw [hn, hn']
    exact .error rfl
  · rw [hn, hn']
    exact .ok (h₁.imp_left fun h₁ => h₁)

theorem enter_of_within {c c' : Cursor} (h : F.Within c c') (source : Source) :
    Agree (fun _ => F.Within) (enter source c) (enter source c') ∨
      lenient ∧ (Configuration.TooDeep (enter source c) ∨
        Configuration.TooDeep (enter source c')) := by
  obtain ⟨hw, hs, hs', upper, b, b', hr, hr', hb⟩ := h
  have hl : c'.reader.limit = c.reader.limit := hs'.2.trans hs.2.symm
  have hpushed : ∀ t t' : List Event, F.Over
      { c.reader with
        top := { source := source }, below := c.reader.top :: c.reader.below, trail := t }
      { c'.reader with
        top := { source := source }, below := c'.reader.top :: c'.reader.below, trail := t' } := by
    intro t t'
    refine ⟨hs, hs', { source := source } :: upper, b, b', ?_, ?_, hb⟩
    · exact congrArg (List.cons _) hr
    · exact congrArg (List.cons _) hr'
  have hdepth : lenient ∨ c'.reader.depth = c.reader.depth := by
    refine F.height.imp_right fun hheight => ?_
    have hlength : c'.reader.stack.length = c.reader.stack.length := by
      rw [hr, hr', List.length_append, List.length_append, hheight hb]
    exact Nat.succ.inj hlength
  unfold enter Reader.includeSource
  by_cases hd : c.reader.depth < c.reader.limit <;> by_cases hd' : c'.reader.depth < c'.reader.limit
  · rw [if_pos hd, if_pos hd']
    exact .inl (.ok ⟨hw, hpushed _ _⟩)
  · -- only one of them is at the limit
    refine .inr ⟨hdepth.resolve_right (by omega), .inr ?_⟩
    rw [if_neg hd']
    exact ⟨_, _, _, rfl⟩
  · refine .inr ⟨hdepth.resolve_right (by omega), .inl ?_⟩
    rw [if_neg hd]
    exact ⟨_, _, _, rfl⟩
  · rw [if_neg hd, if_neg hd']
    exact .inl (.error (by simp [ParseError.cause, hl]))

/-- Readers with the same sources open above corresponding ones are paired. -/
def pairing : Configuration.RunPairing shown lenient where
  Within := F.Within
  Beyond := F.Beyond
  reading h := h.1
  separator h := h.2.follows'.1.trans h.2.follows.1.symm
  ended := F.ended
  reads := F.advance_of_within
  comments h := h.2.comments
  dispatches h keyword word := ⟨h.1, h.2.takes F (.dispatching keyword word) _⟩
  enters := F.enter_of_within

end Foundation

end KeepRules
