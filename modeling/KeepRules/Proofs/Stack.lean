import KeepRules.Proofs.Reading

/-! # The stack of sources

A reader can be given three calls: to include a source, to read the next word, and to hand over the
comments. Whatever calls it has been given, its sources form a stack that is read from the top.

* `Reader.Moves`: all that a read can do. The exhausted sources on top are taken off, the first
  source that is not exhausted is read, and those below it stay as they are.
* `Reader.Gives r words r'`: reading again and again gives `words`, where nothing stands for the
  end. What is given comes off the front of what is ahead (`Gives.ahead`), and all that is ahead
  can be read if nothing in it is faulty (`yields_iff`).
* `Reader.Faithful`: what holds of every reader that calls can lead to (`faithful_of_calls`). -/

set_option autoImplicit false

namespace KeepRules

namespace Frame

/-- Neither a word nor a line that cannot be read is left, and the source can be read to its
end. -/
def Exhausted (separator : Char) (f : Frame) : Prop :=
  f.ahead separator = [] ∧ f.source.fault = none

theorem exhausted_of_next {separator : Char} {f f' : Frame}
    (h : f.next separator = .ok none f') : f.Exhausted separator ∧ f'.Exhausted separator := by
  have hfault : f'.source.fault = none := by
    fun_induction next separator f with
    | case1 => simp at h
    | case2 => simp at h
    | case3 f hw source hl =>
      cases h
      obtain ⟨rfl, hu⟩ := Source.unread_of_nextLine_none hl
      rw [Source.nextLine, hu] at hl
      dsimp only at hl ⊢
      split at hl
      · next hn => exact hn
      · cases hl
    | case4 f hw line source hl words comment hs ih => exact ih h
  obtain ⟨ha, ha'⟩ := ahead_of_next_none h
  exact ⟨⟨ha, (fault_of_next_none h).symm.trans hfault⟩, ha', hfault⟩

end Frame

namespace Reader

/-! ## One read -/

/-- From `r` to `r'`, exhausted sources have been taken off, so that `f` was on top, and `f` has
become `f'`. The sources below are the same. -/
structure Pops (r : Reader) (f f' : Frame) (lower : List Frame) (r' : Reader) : Prop where
  before : ∃ gone, r.stack = gone ++ f :: lower ∧ ∀ g ∈ gone, g.Exhausted r.separator
  after : r'.stack = f' :: lower
  separator : r'.separator = r.separator
  limit : r'.limit = r.limit

/-- What a read can come to. It ends only at the root, with nothing below. -/
inductive Moves (r : Reader) : EStateM.Result ParseError Reader (Option String) → Prop where
  | gives {f f' : Frame} {lower : List Frame} {w : String} {r' : Reader} :
      r.Pops f f' lower r' → f.next r.separator = .ok (some w) f' → Moves r (.ok (some w) r')
  | ends {f f' : Frame} {r' : Reader} :
      r.Pops f f' [] r' → f.next r.separator = .ok none f' → Moves r (.ok none r')
  | fails {f f' : Frame} {lower : List Frame} {fault : IoFault} {r' : Reader} :
      r.Pops f f' lower r' → f.next r.separator = .error fault f' →
      Moves r (.error (.unreadable f'.source.origin fault) r')

theorem pops_top (r : Reader) (f : Frame) : r.Pops r.top f r.below { r with top := f } :=
  ⟨⟨[], rfl, nofun⟩, rfl, rfl, rfl⟩

theorem Pops.of_exhausted {r r₁ r' : Reader} {f f' : Frame} {lower : List Frame}
    (h : r₁.Pops f f' lower r') (htop : r.top.Exhausted r.separator) (hb : r.below = r₁.stack)
    (hs : r₁.separator = r.separator) (hl : r₁.limit = r.limit) : r.Pops f f' lower r' := by
  obtain ⟨⟨gone, hstack, hgone⟩, hafter, hs', hl'⟩ := h
  refine ⟨⟨r.top :: gone, ?_, fun g hg => ?_⟩, hafter, hs'.trans hs, hl'.trans hl⟩
  · rw [stack, hb, hstack]
    rfl
  · rcases List.mem_cons.1 hg with rfl | hg
    · exact htop
    · exact hs ▸ hgone g hg

theorem moves_next (r : Reader) : r.Moves r.next := by
  fun_induction next r with
  | case1 r fault top ht => exact .fails (r.pops_top top) ht
  | case2 r w top ht => exact .gives (r.pops_top top) ht
  | case3 r top ht hb => exact .ends (hb ▸ r.pops_top top) ht
  | case4 r top ht frame below hb ih =>
    have htop := (Frame.exhausted_of_next ht).1
    generalize hn : next _ = result at ih ⊢
    cases ih with
    | gives hp hf => exact .gives (hp.of_exhausted htop hb rfl rfl) hf
    | ends hp hf => exact .ends (hp.of_exhausted htop hb rfl rfl) hf
    | fails hp hf => exact .fails (hp.of_exhausted htop hb rfl rfl) hf

theorem Pops.depth_le {r r' : Reader} {f f' : Frame} {lower : List Frame}
    (h : r.Pops f f' lower r') : r'.depth ≤ r.depth := by
  obtain ⟨⟨gone, hstack, -⟩, hafter, -, -⟩ := h
  have hlength := congrArg List.length hstack
  have hlength' := congrArg List.length hafter
  simp only [stack, List.length_cons, List.length_append] at hlength hlength'
  simp only [depth]
  omega

/-! ## Reading again and again -/

/-- Reading from `r` on gives the words one after the other, where nothing stands for the end, and
the reader is then in the state `r'`. -/
inductive Gives : Reader → List (Option String) → Reader → Prop where
  | nil {r : Reader} : Gives r [] r
  | cons {r r₁ r' : Reader} {word : Option String} {words : List (Option String)} :
      r.next = .ok word r₁ → Gives r₁ words r' → Gives r (word :: words) r'

/-- The words are given, and then the end is. -/
def Yields (r : Reader) (ws : List String) : Prop := ∃ r', r.Gives (ws.map some ++ [none]) r'

theorem Gives.of_append {r r' : Reader} {u v : List (Option String)} (h : r.Gives (u ++ v) r') :
    ∃ m, r.Gives u m ∧ m.Gives v r' := by
  induction u generalizing r with
  | nil => exact ⟨r, .nil, h⟩
  | cons w u ih =>
    cases h with
    | cons hn h =>
      obtain ⟨m, h₁, h₂⟩ := ih h
      exact ⟨m, .cons hn h₁, h₂⟩

/-- What is given comes off the front of what is ahead, and the end is given only when nothing is
ahead any more. -/
theorem Gives.ahead {r r' : Reader} {words : List (Option String)} (h : r.Gives words r') :
    ∃ (ws : List String) (k : Nat), words = ws.map some ++ List.replicate k none ∧
      r.ahead = ws.map .ok ++ r'.ahead ∧ (k ≠ 0 → r'.ahead = []) := by
  induction h with
  | nil => exact ⟨[], 0, rfl, rfl, nofun⟩
  | @cons r r₁ r' word words hn _ ih =>
    obtain ⟨ws, k, hwords, ha, hk⟩ := ih
    cases word with
    | some w =>
      refine ⟨w :: ws, k, by rw [hwords]; rfl, ?_, hk⟩
      rw [ahead_of_next_some hn, ha]
      rfl
    | none =>
      obtain ⟨h0, h1⟩ := ahead_of_next_none hn
      rw [h1] at ha
      obtain ⟨hws, hr'⟩ := List.append_eq_nil_iff.1 ha.symm
      obtain rfl := List.map_eq_nil_iff.1 hws
      refine ⟨[], k + 1, by rw [hwords]; rfl, by rw [h0, hr']; rfl, fun _ => hr'⟩

theorem Faultless.of_next {r r' : Reader} {word : Option String} (h : r.next = .ok word r')
    (hr' : r'.Faultless) : r.Faultless := by
  have hm := h ▸ r.moves_next
  obtain ⟨f, f', lower, hp, hf⟩ : ∃ f f' lower, r.Pops f f' lower r' ∧
      f'.source.fault = f.source.fault := by
    cases hm with
    | gives hp hf => exact ⟨_, _, _, hp, Frame.fault_of_next_some hf⟩
    | ends hp hf => exact ⟨_, _, _, hp, Frame.fault_of_next_none hf⟩
  obtain ⟨⟨gone, hstack, hgone⟩, hafter, -, -⟩ := hp
  have hleft : ∀ g ∈ f' :: lower, g.source.fault = none := hafter ▸ hr'
  show ∀ g ∈ r.stack, g.source.fault = none
  rw [hstack]
  intro g hg
  rcases List.mem_append.1 hg with hg | hg
  · exact (hgone g hg).2
  · rcases List.mem_cons.1 hg with rfl | hg
    · exact hf.symm.trans (hleft f' List.mem_cons_self)
    · exact hleft g (List.mem_cons_of_mem _ hg)

theorem faultless_of_next_none {r r' : Reader} (h : r.next = .ok none r') : r.Faultless := by
  refine Faultless.of_next h fun g hg => ?_
  have hm := h ▸ r.moves_next
  cases hm with
  | ends hp hf =>
    have hg' : g ∈ r'.stack := hg
    rw [hp.after] at hg'
    rw [List.mem_singleton.1 hg']
    exact (Frame.exhausted_of_next hf).2.2

/-- A reader whose sources are not faulty gives a word if one is ahead, and else the end. -/
theorem next_of_ahead {r : Reader} {ws : List String} (ha : r.ahead = ws.map .ok)
    (hr : r.Faultless) :
    ∃ r', r.next = .ok ws.head? r' ∧ r'.ahead = ws.tail.map .ok ∧ r'.Faultless := by
  have hc : Cursor.Ahead ⟨r, none⟩ ws := ⟨ha, hr⟩
  obtain ⟨c, hadvance, hat⟩ := Cursor.At.advance hc
  have hn := Cursor.advance_eq_ok.1 hadvance
  rw [hat.word] at hn
  exact ⟨c.reader, hn, hat.rest.ahead, hat.rest.faultless⟩

theorem gives_of_ahead {r : Reader} {ws : List String} (ha : r.ahead = ws.map .ok)
    (hr : r.Faultless) (k : Nat) :
    ∃ r', r.Gives (ws.map some ++ List.replicate k none) r' := by
  induction ws generalizing r with
  | cons w ws ih =>
    obtain ⟨r₁, hn, ha₁, hr₁⟩ := next_of_ahead ha hr
    obtain ⟨r', hg⟩ := ih ha₁ hr₁
    exact ⟨r', .cons hn hg⟩
  | nil =>
    induction k generalizing r with
    | zero => exact ⟨r, .nil⟩
    | succ k ih =>
      obtain ⟨r₁, hn, ha₁, hr₁⟩ := next_of_ahead ha hr
      obtain ⟨r', hg⟩ := ih ha₁ hr₁
      exact ⟨r', .cons hn hg⟩

/-- The words that a reader gives before it ends are those ahead of it. -/
theorem yields_iff {r : Reader} {ws : List String} :
    r.Yields ws ↔ r.ahead = ws.map .ok ∧ r.Faultless := by
  constructor
  · rintro ⟨r', h⟩
    induction ws generalizing r with
    | nil =>
      cases h with
      | cons hn _ => exact ⟨(ahead_of_next_none hn).1, faultless_of_next_none hn⟩
    | cons w ws ih =>
      cases h with
      | cons hn h =>
        obtain ⟨ha, hr⟩ := ih h
        refine ⟨?_, .of_next hn hr⟩
        rw [ahead_of_next_some hn, ha]
        rfl
  · rintro ⟨ha, hr⟩
    exact gives_of_ahead ha hr 1

/-- A source whose lines can all be read gives their words. -/
theorem yields_of_lines {settings : Settings} {source : Source} {lines : List String}
    (hf : source.fault = none) (hu : source.unread = lines.map some) :
    (ofSource source settings).Yields
      (lines.flatMap fun line => (Word.ofLine settings.pathSeparator line).1) := by
  refine yields_iff.2 ⟨?_, fun f hm => ?_⟩
  · simp [ahead, ofSource, Frame.ahead, hu, List.flatMap_map, List.map_flatMap]
  · rw [List.mem_singleton.1 hm]
    exact hf

/-! ## Calls -/

/-- What a reader can be asked to do. -/
inductive Call where
  | includeSource (source : Source)
  | next
  | takeComments

/-- The reader that a call leaves behind, also when it fails. -/
def left {α : Type} : EStateM.Result ParseError Reader α → Reader
  | .ok _ r => r
  | .error _ r => r

def Call.perform (r : Reader) : Call → Reader
  | includeSource source => left (r.includeSource source)
  | next => left r.next
  | takeComments => r.takeComments.2

def after (r : Reader) (calls : List Call) : Reader := calls.foldl Call.perform r

/-- The reader follows the settings, also in how many includes are open. -/
structure Limited (settings : Settings) (r : Reader) : Prop where
  follows : r.Follows settings
  depth_le : r.depth ≤ settings.maxIncludeDepth

section
variable {settings : Settings} {r r' : Reader}

theorem Limited.pops {f f' : Frame} {lower : List Frame} (h : r.Limited settings)
    (hp : r.Pops f f' lower r') : r'.Limited settings :=
  ⟨⟨hp.separator.trans h.follows.1, hp.limit.trans h.follows.2⟩,
    Nat.le_trans hp.depth_le h.depth_le⟩

theorem Limited.next (h : r.Limited settings) : (left r.next).Limited settings := by
  have hm := r.moves_next
  generalize r.next = result at hm ⊢
  cases hm with
  | gives hp _ => exact h.pops hp
  | ends hp _ => exact h.pops hp
  | fails hp _ => exact h.pops hp

theorem Limited.includeSource (h : r.Limited settings) (source : Source) :
    (left (r.includeSource source)).Limited settings := by
  by_cases hd : r.depth < r.limit
  · rw [includeSource_of_lt source hd]
    exact ⟨h.follows, h.follows.2 ▸ hd⟩
  · rw [includeSource_of_le source (Nat.not_lt.1 hd)]
    exact h

theorem Limited.perform (h : r.Limited settings) (call : Call) :
    (call.perform r).Limited settings := by
  cases call with
  | includeSource source => exact h.includeSource source
  | next => exact h.next
  | takeComments => exact ⟨h.follows, h.depth_le⟩

theorem Limited.after (h : r.Limited settings) (calls : List Call) :
    (r.after calls).Limited settings := by
  induction calls generalizing r with
  | nil => exact h
  | cons call calls ih => exact ih (h.perform call)

end

/-- How a reader is to behave whose settings are given. -/
structure Faithful (settings : Settings) (r : Reader) : Prop where
  depth_le : r.depth ≤ settings.maxIncludeDepth
  /-- At the limit a source is refused, whatever it holds, and the reader stays as it is. -/
  refuses : r.depth = settings.maxIncludeDepth → ∀ source, r.includeSource source =
    .error (.rejected (.nestedTooDeep settings.maxIncludeDepth) r.location) r
  /-- Below the limit a source is put on top as it is, and its words come before all others. -/
  accepts : r.depth ≠ settings.maxIncludeDepth → ∀ source, ∃ r',
    r.includeSource source = .ok () r' ∧ r'.stack = { source := source } :: r.stack ∧
      r'.ahead = ({ source := source } : Frame).ahead settings.pathSeparator ++ r.ahead
  /-- As long as no read fails, what is given comes off the front of the words ahead, those of the
  innermost source first and those of the root last; after them the end is given each time. -/
  order : ∀ words r', r.Gives words r' →
    ∃ (ws : List String) (k : Nat), words = ws.map some ++ List.replicate k none ∧
      r.ahead = ws.map .ok ++ r'.ahead ∧ (k ≠ 0 → r'.ahead = [])
  /-- No read fails if no source is faulty, and then all words are given. -/
  complete : ∀ ws : List String, r.ahead = ws.map .ok → r.Faultless →
    ∀ k, ∃ r', r.Gives (ws.map some ++ List.replicate k none) r'
  /-- Only exhausted sources are taken off, and those below the one that is read do not change. -/
  moves : r.Moves r.next

theorem Limited.faithful {settings : Settings} {r : Reader} (h : r.Limited settings) :
    r.Faithful settings := by
  obtain ⟨⟨hseparator, hlimit⟩, hdepth⟩ := h
  refine ⟨hdepth, fun hfull source => ?_, fun hfree source => ?_, fun _ _ => Gives.ahead,
    fun _ => gives_of_ahead, r.moves_next⟩
  · rw [← hlimit] at hfull ⊢
    exact includeSource_of_le source (Nat.le_of_eq hfull.symm)
  · rw [← hlimit] at hdepth hfree
    refine ⟨_, includeSource_of_lt source (by omega), rfl, ?_⟩
    rw [← hseparator]
    rfl

/-- **Readers are faithful stacks.** Whatever sources are included and however far they are read,
the reader keeps to its limit, gives every word once and in order, and leaves the sources that it
does not read alone. -/
theorem faithful_of_calls (settings : Settings) (root : Source) (calls : List Call) :
    ((ofSource root settings).after calls).Faithful settings := by
  have hroot : (ofSource root settings).Limited settings := ⟨⟨rfl, rfl⟩, Nat.zero_le _⟩
  exact (hroot.after calls).faithful

/-- The second source is included in the middle of the first one. -/
example :
    ((ofSource (.ofArguments ["a b"]) {}).after
      [.next, .includeSource (.ofArguments ["c", "d # e"]), .next]).ahead =
        [.ok "d", .ok "b"] := by cbv

end Reader

end KeepRules
