import KeepRules.Parser
import KeepRules.Proofs.Words

/-! # Reading on

What a cursor reads is said in three ways, each by what is still to come.

* `Reads c ws c'`: going on from `c`, the words `ws` are read, and `c'` has the last of them as its
  lookahead. `Passes c ws c'`: `c'` is one word further. `Takes c ws c'`: the first of the words is
  the lookahead of `c` already.
* `Ahead c ws`: `ws` is all that comes after the lookahead, without a fault. Reading then takes
  words off the front of `ws` (`Passes.ahead`), and never fails to (`Ahead.passes`).
* `Lexical c`: all words are of the form that lines are cut into; reading keeps this.

First comes what a single read and a single include do to the open sources (`Reader.stack`). -/

set_option autoImplicit false

namespace KeepRules

open KeepRules.Parser

namespace Frame

theorem ahead_of_next_error {separator : Char} {f f' : Frame} {fault : IoFault}
    (h : f.next separator = .error fault f') (hf : f.source.fault = none) :
    f.ahead separator = .error fault :: f'.ahead separator := by
  fun_induction next separator f with
  | case1 => simp at h
  | case2 f hw fault' source hl =>
    simp only [EStateM.Result.error.injEq] at h
    obtain ⟨rfl, rfl⟩ := h
    unfold Source.nextLine at hl
    split at hl
    · simp [hf] at hl
    · next rest hu =>
      cases hl
      simp [ahead, hw, hu]
    · cases hl
  | case3 => simp at h
  | case4 f hw line source hl words comment hs ih =>
    obtain ⟨hu, -, hs', -⟩ := Source.unread_of_nextLine_some hl
    rw [← ih h (hs'.trans hf)]
    simp [ahead, hw, hu, hs]

theorem fault_of_next_some {separator : Char} {f f' : Frame} {word : String}
    (h : f.next separator = .ok (some word) f') : f'.source.fault = f.source.fault := by
  fun_induction next separator f with
  | case1 f w words hw => cases h; rfl
  | case2 => simp at h
  | case3 => simp at h
  | case4 f hw line source hl words comment hs ih =>
    rw [ih h]
    exact (Source.unread_of_nextLine_some hl).2.2.1

theorem fault_of_next_none {separator : Char} {f f' : Frame}
    (h : f.next separator = .ok none f') : f'.source.fault = f.source.fault := by
  fun_induction next separator f with
  | case1 => simp at h
  | case2 => simp at h
  | case3 f hw source hl =>
    cases h
    rw [(Source.unread_of_nextLine_none hl).1]
  | case4 f hw line source hl words comment hs ih =>
    rw [ih h]
    exact (Source.unread_of_nextLine_some hl).2.2.1

/-- The words of the current line look like words. -/
def Lexical (separator : Char) (f : Frame) : Prop := ∀ w ∈ f.words, Word.IsWord separator w

theorem Lexical.next {separator : Char} {f f' : Frame} {word : Option String}
    (hf : f.Lexical separator) (h : f.next separator = .ok word f') :
    f'.Lexical separator ∧ ∀ w, word = some w → Word.IsWord separator w := by
  fun_induction Frame.next separator f with
  | case1 f w words hw =>
    cases h
    have hf' : ∀ v ∈ w :: words, Word.IsWord separator v := hw ▸ hf
    refine ⟨fun v hv => hf' v (List.mem_cons_of_mem _ hv), fun v hv => ?_⟩
    cases hv
    exact hf' w List.mem_cons_self
  | case2 => simp at h
  | case3 f hw source hl =>
    cases h
    exact ⟨hf, fun w hw => by cases hw⟩
  | case4 f hw line source hl words comment hs ih =>
    refine ih (fun v hv => ?_) h
    have hv' : v ∈ (Word.ofLine separator line).1 := by rw [hs]; exact hv
    exact Word.isWord_of_ofLine hv'

end Frame

namespace Reader

/-- No source of the reader ends in a fault. -/
def Faultless (r : Reader) : Prop := ∀ f ∈ r.top :: r.below, f.source.fault = none

def Lexical (r : Reader) : Prop := ∀ f ∈ r.top :: r.below, f.Lexical r.separator

theorem ahead_eq (r : Reader) :
    r.ahead = r.top.ahead r.separator ++ r.below.flatMap (Frame.ahead r.separator) := by
  simp [ahead]

theorem ahead_of_next_some {r r' : Reader} {word : String} (h : r.next = .ok (some word) r') :
    r.ahead = .ok word :: r'.ahead := by
  fun_induction next r with
  | case1 => simp at h
  | case2 r w top ht =>
    simp only [EStateM.Result.ok.injEq, Option.some.injEq] at h
    obtain ⟨rfl, rfl⟩ := h
    rw [ahead_eq, ahead_eq, Frame.ahead_of_next_some ht]
    rfl
  | case3 => simp at h
  | case4 r top ht frame below hb ih =>
    rw [← ih h, ahead_eq, hb, (Frame.ahead_of_next_none ht).1]
    rfl

theorem ahead_of_next_none {r r' : Reader} (h : r.next = .ok none r') :
    r.ahead = [] ∧ r'.ahead = [] := by
  fun_induction next r with
  | case1 => simp at h
  | case2 => simp at h
  | case3 r top ht hb =>
    simp only [EStateM.Result.ok.injEq, true_and] at h
    subst h
    obtain ⟨h0, h1⟩ := Frame.ahead_of_next_none ht
    simp [ahead, hb, h0, h1]
  | case4 r top ht frame below hb ih =>
    refine ⟨?_, (ih h).2⟩
    rw [← (ih h).1, ahead_eq, hb, (Frame.ahead_of_next_none ht).1]
    rfl

theorem ahead_of_next_error {r r' : Reader} {e : ParseError} (h : r.next = .error e r')
    (hr : r.Faultless) : ∃ fault rest, r.ahead = .error fault :: rest := by
  fun_induction next r with
  | case1 r fault top ht =>
    rw [ahead_eq, Frame.ahead_of_next_error ht (hr _ List.mem_cons_self)]
    exact ⟨fault, _, rfl⟩
  | case2 => simp at h
  | case3 => simp at h
  | case4 r top ht frame below hb ih =>
    obtain ⟨fault, rest, ha⟩ := ih h fun f hf => hr f (List.mem_cons_of_mem _ (hb ▸ hf))
    refine ⟨fault, rest, ?_⟩
    rw [← ha, ahead_eq, hb, (Frame.ahead_of_next_none ht).1]
    rfl

theorem Faultless.next {r r' : Reader} {word : Option String} (hr : r.Faultless)
    (h : r.next = .ok word r') : r'.Faultless := by
  fun_induction Reader.next r with
  | case1 => simp at h
  | case2 r w top ht =>
    cases h
    intro f hf
    rcases List.mem_cons.1 hf with rfl | hf
    · exact (Frame.fault_of_next_some ht).trans (hr _ List.mem_cons_self)
    · exact hr f (List.mem_cons_of_mem _ hf)
  | case3 r top ht hb =>
    cases h
    intro f hf
    rcases List.mem_cons.1 hf with rfl | hf
    · exact (Frame.fault_of_next_none ht).trans (hr _ List.mem_cons_self)
    · exact hr f (List.mem_cons_of_mem _ hf)
  | case4 r top ht frame below hb ih =>
    exact ih (fun f hf => hr f (List.mem_cons_of_mem _ (hb ▸ hf))) h

theorem separator_of_next {r r' : Reader} {word : Option String} (h : r.next = .ok word r') :
    r'.separator = r.separator := by
  fun_induction next r with
  | case1 => simp at h
  | case2 => cases h; rfl
  | case3 => cases h; rfl
  | case4 r top ht frame below hb ih => exact ih h

theorem Lexical.next {r r' : Reader} {word : Option String} (hr : r.Lexical)
    (h : r.next = .ok word r') :
    r'.Lexical ∧ ∀ w, word = some w → Word.IsWord r.separator w := by
  fun_induction Reader.next r with
  | case1 => simp at h
  | case2 r w top ht =>
    cases h
    obtain ⟨ht', hw⟩ := (hr _ List.mem_cons_self).next ht
    refine ⟨fun f hf => ?_, hw⟩
    rcases List.mem_cons.1 hf with rfl | hf
    · exact ht'
    · exact hr f (List.mem_cons_of_mem _ hf)
  | case3 r top ht hb =>
    cases h
    refine ⟨fun f hf => ?_, fun w hw => by cases hw⟩
    rcases List.mem_cons.1 hf with rfl | hf
    · exact ((hr _ List.mem_cons_self).next ht).1
    · exact hr f (List.mem_cons_of_mem _ hf)
  | case4 r top ht frame below hb ih =>
    exact ih (fun f hf => hr f (List.mem_cons_of_mem _ (hb ▸ hf))) h

/-- The open sources, the innermost first. -/
def stack (r : Reader) : List Frame := r.top :: r.below

theorem next_of_some {r : Reader} {f : Frame} {w : String}
    (h : r.top.next r.separator = .ok (some w) f) :
    r.next = .ok (some w) { r with top := f } := by
  rw [next, h]

theorem next_of_none {r : Reader} {f : Frame} (hb : r.below = [])
    (h : r.top.next r.separator = .ok none f) : r.next = .ok none { r with top := f } := by
  rw [next, h]
  dsimp only
  split
  · rfl
  · next hb' => rw [hb] at hb'; cases hb'

theorem next_of_error {r : Reader} {f : Frame} {fault : IoFault}
    (h : r.top.next r.separator = .error fault f) :
    r.next = .error (.unreadable f.source.origin fault) { r with top := f } := by
  rw [next, h]

/-- An exhausted source is taken off, and the one below it is read. -/
theorem next_of_pop {r : Reader} {f g : Frame} {below : List Frame}
    (h : r.top.next r.separator = .ok none f) (hb : r.below = g :: below) :
    r.next = next { r with
      top := g
      below := below
      trail := .leaving r.depth f.source.origin :: r.trail } := by
  rw [next, h]
  dsimp only
  split
  · next hb' => rw [hb] at hb'; cases hb'
  · next g' below' hb' =>
    rw [hb] at hb'
    cases hb'
    rfl

/-- Below the limit a source is put on top. -/
theorem includeSource_of_lt {r : Reader} (source : Source) (h : r.depth < r.limit) :
    r.includeSource source = .ok () { r with
      top := { source := source }
      below := r.stack
      trail := .entering (r.depth + 1) source.origin :: r.trail } :=
  if_pos h

theorem includeSource_of_le {r : Reader} (source : Source) (h : r.limit ≤ r.depth) :
    r.includeSource source = .error (.rejected (.nestedTooDeep r.limit) r.location) r :=
  if_neg (Nat.not_lt.2 h)

theorem limit_of_next {r r' : Reader} {word : Option String} (h : r.next = .ok word r') :
    r'.limit = r.limit := by
  fun_induction next r with
  | case1 => simp at h
  | case2 => cases h; rfl
  | case3 => cases h; rfl
  | case4 r top ht frame below hb ih => exact ih h

/-- Reading takes exhausted sources off and puts none on. -/
theorem depth_of_next {r r' : Reader} {word : Option String} (h : r.next = .ok word r') :
    r'.depth ≤ r.depth := by
  fun_induction next r with
  | case1 => simp at h
  | case2 => cases h; exact Nat.le_refl _
  | case3 => cases h; exact Nat.le_refl _
  | case4 r top ht frame below hb ih =>
    refine Nat.le_trans (ih h) ?_
    rw [depth, depth, hb]
    exact Nat.le_succ _

theorem length_of_next {r r' : Reader} {word : Option String} (h : r.next = .ok word r')
    (hr : r.stack.length = 1) : r'.stack.length = 1 := by
  have hd : r.depth = 0 := Nat.succ.inj hr
  have hd' : r'.depth = 0 := Nat.le_zero.1 (hd ▸ depth_of_next h)
  exact congrArg Nat.succ hd'

/-- The reader was set up with these settings. -/
def Follows (settings : Settings) (r : Reader) : Prop :=
  r.separator = settings.pathSeparator ∧ r.limit = settings.maxIncludeDepth

theorem Follows.next {settings : Settings} {r r' : Reader} {word : Option String}
    (hr : r.Follows settings) (h : r.next = .ok word r') : r'.Follows settings :=
  ⟨(separator_of_next h).trans hr.1, (limit_of_next h).trans hr.2⟩

end Reader

namespace Cursor

/-- Going on from `c`, the words are read, and `c'` has the last of them as its lookahead. -/
inductive Reads : Cursor → List String → Cursor → Prop where
  | nil {c : Cursor} : Reads c [] c
  | cons {c c₁ c' : Cursor} {w : String} {ws : List String} :
      advance c = .ok () c₁ → c₁.word = some w → Reads c₁ ws c' → Reads c (w :: ws) c'

/-- Going on from `c`, the words are read, and the lookahead of `c'` is what comes next. -/
def Passes (c : Cursor) (ws : List String) (c' : Cursor) : Prop :=
  ∃ m, Reads c ws m ∧ advance m = .ok () c'

/-- The lookahead of `c` and what comes after it are the words, and the lookahead of `c'` is what
comes next. -/
inductive Takes : Cursor → List String → Cursor → Prop where
  | nil {c : Cursor} : Takes c [] c
  | cons {c c₁ c' : Cursor} {w : String} {ws : List String} :
      c.word = some w → advance c = .ok () c₁ → Takes c₁ ws c' → Takes c (w :: ws) c'

/-- All that comes after the lookahead, if nothing is included and nothing fails. -/
structure Ahead (c : Cursor) (ws : List String) : Prop where
  ahead : c.reader.ahead = ws.map .ok
  faultless : c.reader.Faultless

/-- The lookahead and all that comes after it. -/
structure At (c : Cursor) (ws : List String) : Prop where
  word : c.word = ws.head?
  rest : c.Ahead ws.tail

structure Lexical (c : Cursor) : Prop where
  word : ∀ w, c.word = some w → Word.IsWord c.reader.separator w
  reader : c.reader.Lexical

theorem advance_eq_ok {c c' : Cursor} {u : Unit} :
    advance c = .ok u c' ↔ c.reader.next = .ok c'.word c'.reader := by
  unfold advance
  cases h : c.reader.next with
  | ok word reader =>
    simp only [EStateM.Result.ok.injEq]
    constructor
    · rintro ⟨-, rfl⟩
      exact ⟨rfl, rfl⟩
    · rintro ⟨rfl, rfl⟩
      exact ⟨trivial, rfl⟩
  | error e reader => simp

theorem next_of_ofReader {r : Reader} {c : Cursor} (h : ofReader r = .ok c) :
    r.next = .ok c.word c.reader := by
  unfold ofReader at h
  split at h
  · next hn =>
    cases h
    exact hn
  · cases h

/-! ## Sequences of words -/

namespace Reads

theorem append {c m c' : Cursor} {u v : List String} (h : Reads c u m) (h' : Reads m v c') :
    Reads c (u ++ v) c' := by
  induction h with
  | nil => exact h'
  | cons ha hw _ ih => exact .cons ha hw (ih h')

theorem of_append {c c' : Cursor} {u v : List String} (h : Reads c (u ++ v) c') :
    ∃ m, Reads c u m ∧ Reads m v c' := by
  induction u generalizing c with
  | nil => exact ⟨c, .nil, h⟩
  | cons w u ih =>
    cases h with
    | cons ha hw h =>
      obtain ⟨m, h₁, h₂⟩ := ih h
      exact ⟨m, .cons ha hw h₁, h₂⟩

theorem nil_iff {c c' : Cursor} : Reads c [] c' ↔ c' = c :=
  ⟨fun h => by cases h; rfl, fun h => h ▸ .nil⟩

theorem append_iff {c c' : Cursor} {u v : List String} :
    Reads c (u ++ v) c' ↔ ∃ m, Reads c u m ∧ Reads m v c' :=
  ⟨of_append, fun ⟨_, h, h'⟩ => h.append h'⟩

theorem cons_iff {c c' : Cursor} {w : String} {ws : List String} :
    Reads c (w :: ws) c' ↔ ∃ m, Reads c [w] m ∧ Reads m ws c' :=
  append_iff (u := [w])

theorem singleton_iff {c c' : Cursor} {w : String} :
    Reads c [w] c' ↔ advance c = .ok () c' ∧ c'.word = some w := by
  constructor
  · intro h
    cases h with
    | cons ha hw h =>
      cases h
      exact ⟨ha, hw⟩
  · rintro ⟨ha, hw⟩
    exact .cons ha hw .nil

/-- The lookahead after reading is the last word read. -/
theorem word {c c' : Cursor} {w : String} {ws : List String} (h : Reads c (ws ++ [w]) c') :
    c'.word = some w := by
  obtain ⟨m, -, h⟩ := h.of_append
  exact (singleton_iff.1 h).2

theorem passes {c m c' : Cursor} {u v : List String} (h : Reads c u m) (h' : Passes m v c') :
    Passes c (u ++ v) c' := by
  obtain ⟨n, h', ha⟩ := h'
  exact ⟨n, h.append h', ha⟩

end Reads

namespace Passes

theorem append_iff {c c' : Cursor} {u v : List String} :
    Passes c (u ++ v) c' ↔ ∃ m, Reads c u m ∧ Passes m v c' := by
  constructor
  · rintro ⟨n, h, ha⟩
    obtain ⟨m, h₁, h₂⟩ := h.of_append
    exact ⟨m, h₁, n, h₂, ha⟩
  · rintro ⟨m, h₁, h₂⟩
    exact h₁.passes h₂

theorem cons_iff {c c' : Cursor} {w : String} {ws : List String} :
    Passes c (w :: ws) c' ↔ ∃ m, Reads c [w] m ∧ Passes m ws c' :=
  append_iff (u := [w])

theorem nil_iff {c c' : Cursor} : Passes c [] c' ↔ advance c = .ok () c' := by
  constructor
  · rintro ⟨m, h, ha⟩
    rw [← Reads.nil_iff.1 h]
    exact ha
  · exact fun h => ⟨c, .nil, h⟩

/-- A word is read when it becomes the lookahead. -/
theorem reads {c c' : Cursor} {w : String} {ws : List String} (h : Passes c ws c')
    (hw : c'.word = some w) : Reads c (ws ++ [w]) c' := by
  obtain ⟨m, h, ha⟩ := h
  exact h.append (.cons ha hw .nil)

end Passes

namespace Takes

theorem append_iff {c c' : Cursor} {u v : List String} :
    Takes c (u ++ v) c' ↔ ∃ m, Takes c u m ∧ Takes m v c' := by
  constructor
  · intro h
    induction u generalizing c with
    | nil => exact ⟨c, .nil, h⟩
    | cons w u ih =>
      cases h with
      | cons hw ha h =>
        obtain ⟨m, h₁, h₂⟩ := ih h
        exact ⟨m, .cons hw ha h₁, h₂⟩
  · rintro ⟨m, h, h'⟩
    induction h with
    | nil => exact h'
    | cons hw ha _ ih => exact .cons hw ha (ih h')

theorem nil_iff {c c' : Cursor} : Takes c [] c' ↔ c' = c :=
  ⟨fun h => by cases h; rfl, fun h => h ▸ .nil⟩

/-- Taking words off the lookahead is passing the others from there. -/
theorem cons_iff {c c' : Cursor} {w : String} {ws : List String} :
    Takes c (w :: ws) c' ↔ c.word = some w ∧ Passes c ws c' := by
  induction ws generalizing c w with
  | nil =>
    rw [Passes.nil_iff]
    constructor
    · intro h
      cases h with
      | cons hw ha h => cases h; exact ⟨hw, ha⟩
    · rintro ⟨hw, ha⟩
      exact .cons hw ha .nil
  | cons v ws ih =>
    rw [Passes.cons_iff]
    constructor
    · intro h
      cases h with
      | @cons _ m _ _ _ hw ha h =>
        obtain ⟨hv, hp⟩ := ih.1 h
        exact ⟨hw, m, Reads.singleton_iff.2 ⟨ha, hv⟩, hp⟩
    · rintro ⟨hw, m, h₁, hp⟩
      obtain ⟨ha, hv⟩ := Reads.singleton_iff.1 h₁
      exact .cons hw ha (ih.2 ⟨hv, hp⟩)

theorem word {c c' : Cursor} {w : String} {ws : List String} (h : Takes c (w :: ws) c') :
    c.word = some w := (cons_iff.1 h).1

end Takes

theorem Passes.takes_iff {c c' : Cursor} {u v : List String} :
    Passes c (u ++ v) c' ↔ ∃ m, Passes c u m ∧ Takes m v c' := by
  cases v with
  | nil =>
    rw [List.append_nil]
    exact ⟨fun h => ⟨c', h, .nil⟩, fun ⟨m, h, h'⟩ => by cases h'; exact h⟩
  | cons w v =>
    rw [Passes.append_iff]
    constructor
    · rintro ⟨n, hu, hv⟩
      obtain ⟨m, hm, hv⟩ := Passes.cons_iff.1 hv
      obtain ⟨ha, hw⟩ := Reads.singleton_iff.1 hm
      exact ⟨m, ⟨n, hu, ha⟩, Takes.cons_iff.2 ⟨hw, hv⟩⟩
    · rintro ⟨m, ⟨n, hu, ha⟩, hv⟩
      obtain ⟨hw, hv⟩ := Takes.cons_iff.1 hv
      exact ⟨n, hu, Passes.cons_iff.2 ⟨m, Reads.singleton_iff.2 ⟨ha, hw⟩, hv⟩⟩

theorem Reads.passes_init {c c' : Cursor} {w : String} {ws : List String}
    (h : Reads c (ws ++ [w]) c') : Passes c ws c' := by
  obtain ⟨m, h, h'⟩ := h.of_append
  exact ⟨m, h, (Reads.singleton_iff.1 h').1⟩

/-! ## What is ahead -/

theorem At.advance {c : Cursor} {ws : List String} (h : c.Ahead ws) :
    ∃ c', Parser.advance c = .ok () c' ∧ c'.At ws := by
  cases hn : c.reader.next with
  | error e r =>
    obtain ⟨fault, rest, he⟩ := Reader.ahead_of_next_error hn h.faultless
    rw [h.ahead] at he
    cases ws <;> simp at he
  | ok word r =>
    refine ⟨⟨r, word⟩, advance_eq_ok.2 hn, ?_⟩
    cases word with
    | none =>
      obtain ⟨h0, h1⟩ := Reader.ahead_of_next_none hn
      rw [h.ahead, List.map_eq_nil_iff] at h0
      subst h0
      exact ⟨rfl, h1, h.faultless.next hn⟩
    | some w =>
      have ha := Reader.ahead_of_next_some hn
      rw [h.ahead] at ha
      cases ws with
      | nil => simp at ha
      | cons v ws =>
        simp only [List.map_cons, List.cons.injEq, Except.ok.injEq] at ha
        obtain ⟨rfl, ha⟩ := ha
        exact ⟨rfl, ha.symm, h.faultless.next hn⟩

theorem At.of_advance {c c' : Cursor} {ws : List String} (h : c.Ahead ws)
    (ha : Parser.advance c = .ok () c') : c'.At ws := by
  obtain ⟨c₁, h₁, hat⟩ := At.advance h
  rw [ha] at h₁
  cases h₁
  exact hat

theorem Ahead.reads {c : Cursor} {ws rest : List String} (h : c.Ahead (ws ++ rest)) :
    ∃ c', Reads c ws c' ∧ c'.Ahead rest := by
  induction ws generalizing c with
  | nil => exact ⟨c, .nil, h⟩
  | cons w ws ih =>
    obtain ⟨c₁, ha, hw, hr⟩ := At.advance h
    obtain ⟨c', h', hr'⟩ := ih hr
    exact ⟨c', .cons ha hw h', hr'⟩

theorem Reads.ahead {c c' : Cursor} {ws all : List String} (h : Reads c ws c')
    (ha : c.Ahead all) : ∃ rest, all = ws ++ rest ∧ c'.Ahead rest := by
  induction h generalizing all with
  | nil => exact ⟨all, rfl, ha⟩
  | @cons c c₁ c' w ws h₁ hw _ ih =>
    obtain ⟨hw', hr⟩ := At.of_advance ha h₁
    rw [hw] at hw'
    cases all with
    | nil => simp at hw'
    | cons v all =>
      obtain ⟨rest, rfl, hr'⟩ := ih hr
      cases hw'
      exact ⟨rest, rfl, hr'⟩

theorem Ahead.passes {c : Cursor} {ws rest : List String} (h : c.Ahead (ws ++ rest)) :
    ∃ c', Passes c ws c' ∧ c'.At rest := by
  obtain ⟨m, hm, hr⟩ := h.reads
  obtain ⟨c', ha, hat⟩ := At.advance hr
  exact ⟨c', ⟨m, hm, ha⟩, hat⟩

theorem Passes.ahead {c c' : Cursor} {ws all : List String} (h : Passes c ws c')
    (ha : c.Ahead all) : ∃ rest, all = ws ++ rest ∧ c'.At rest := by
  obtain ⟨m, hm, h'⟩ := h
  obtain ⟨rest, rfl, hr⟩ := hm.ahead ha
  exact ⟨rest, rfl, At.of_advance hr h'⟩

theorem At.atEnd {c : Cursor} {ws : List String} (h : c.At ws) :
    c.atEnd = ws.head?.all Directive.starts := by
  rw [Cursor.atEnd, h.word]

/-- A cursor determines the words from its lookahead on. -/
theorem At.unique {c : Cursor} {u v : List String} (hu : c.At u) (hv : c.At v) : u = v := by
  have hhead : u.head? = v.head? := hu.word.symm.trans hv.word
  have htail : u.tail = v.tail :=
    (List.map_inj_right fun _ _ => Except.ok.inj).1 (hu.rest.ahead.symm.trans hv.rest.ahead)
  cases u <;> cases v <;> simp_all

/-! ## The form of words -/

theorem separator_of_advance {c c' : Cursor} (h : advance c = .ok () c') :
    c'.reader.separator = c.reader.separator :=
  Reader.separator_of_next (advance_eq_ok.1 h)

theorem Lexical.advance {c c' : Cursor} (hc : c.Lexical) (h : Parser.advance c = .ok () c') :
    c'.Lexical := by
  have hn := advance_eq_ok.1 h
  obtain ⟨hr, hw⟩ := hc.reader.next hn
  exact ⟨fun w h' => separator_of_advance h ▸ hw w h', hr⟩

theorem Reads.separator {c c' : Cursor} {ws : List String} (h : Reads c ws c') :
    c'.reader.separator = c.reader.separator := by
  induction h with
  | nil => rfl
  | cons ha _ _ ih => exact ih.trans (separator_of_advance ha)

theorem Reads.lexical {c c' : Cursor} {ws : List String} (h : Reads c ws c') (hc : c.Lexical) :
    c'.Lexical ∧ ∀ w ∈ ws, Word.IsWord c.reader.separator w := by
  induction h with
  | nil => exact ⟨hc, by simp⟩
  | @cons c c₁ c' w ws ha hw _ ih =>
    have h₁ := hc.advance ha
    obtain ⟨h', hws⟩ := ih h₁
    rw [separator_of_advance ha] at hws
    refine ⟨h', fun v hv => ?_⟩
    rcases List.mem_cons.1 hv with rfl | hv
    · exact separator_of_advance ha ▸ h₁.word v hw
    · exact hws v hv

theorem Passes.separator {c c' : Cursor} {ws : List String} (h : Passes c ws c') :
    c'.reader.separator = c.reader.separator := by
  obtain ⟨m, hm, ha⟩ := h
  exact (separator_of_advance ha).trans hm.separator

theorem Passes.lexical {c c' : Cursor} {ws : List String} (h : Passes c ws c') (hc : c.Lexical) :
    c'.Lexical ∧ ∀ w ∈ ws, Word.IsWord c.reader.separator w := by
  obtain ⟨m, hm, ha⟩ := h
  obtain ⟨hm', hws⟩ := hm.lexical hc
  exact ⟨hm'.advance ha, hws⟩

end Cursor

/-! ## Single words -/

namespace Parser

theorem readWord_iff {what : Expected} {c c' : Cursor} {w : String} :
    readWord what c = .ok w c' ↔ c.Reads [w] c' ∧ Directive.starts w = false := by
  rw [readWord_eq_ok, Cursor.Reads.singleton_iff, and_assoc]

/-- A word is asked for where the directive is over. -/
theorem readWord_of_atEnd {what : Expected} {c c' : Cursor} (ha : advance c = .ok () c')
    (hend : c'.atEnd = true) : readWord what c = reject (.expected what) c' := by
  have hatEnd : atEnd c' = .ok true c' := atEnd_eq_ok.2 ⟨hend, rfl⟩
  rw [readWord, bind_apply, ha]
  show (atEnd >>= _) c' = _
  rw [bind_apply, hatEnd]
  rfl

theorem readPattern_iff {what : Expected} {c c' : Cursor} {w : String} :
    readPattern what c = .ok w c' ↔ c.Reads [w] c' ∧ Identifier.isPattern w = true := by
  rw [readPattern_eq_ok, readWord_iff]
  refine ⟨fun h => ⟨h.1.1, h.2⟩, fun h => ⟨⟨h.1, ?_⟩, h.2⟩⟩
  exact Directive.starts_of_isPattern h.2

end Parser

/-! ## Loops -/

theorem Loop.run_eq_ok {α β : Type} {l : Loop α β} {a : α} {b : β} {c c' : Cursor} :
    l.run a c = .ok b c' ↔ l.round a c = .ok (.done b) c' ∨
      ∃ a' c₁, l.round a c = .ok (.again a') c₁ ∧ l.run a' c₁ = .ok b c' := by
  rw [run_apply]
  cases h : l.round a c with
  | error e c₁ => simp
  | ok r c₁ =>
    cases r with
    | done d => simp
    | again a' =>
      simp only [EStateM.Result.ok.injEq, reduceCtorEq, false_and, false_or, Round.again.injEq]
      exact ⟨fun hr => ⟨a', c₁, ⟨rfl, rfl⟩, hr⟩, fun ⟨_, _, ⟨h₁, h₂⟩, hr⟩ => h₁ ▸ h₂ ▸ hr⟩

end KeepRules
