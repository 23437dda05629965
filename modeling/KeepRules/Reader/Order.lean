import KeepRules.Reader

/-! # Progress of a reader

Why reading comes to an end although an include adds words. The numbers of words left in the
sources, from the root upwards, form a list. A read that gives a word lowers one number of the list
and may only remove numbers after it; an include adds a number after the others. The list never
gets longer than the limit allows, and among lists of bounded length there is no endless descent
of this kind (`before_wf`). -/

set_option autoImplicit false

namespace KeepRules

/-! ## Lists that drop at a place -/

/-- `Drops l' l`: the two lists agree up to a place where `l'` has a lower number. -/
inductive Drops : List Nat → List Nat → Prop where
  | here {y x : Nat} {v u : List Nat} : y < x → Drops (y :: v) (x :: u)
  | later {x : Nat} {v u : List Nat} : Drops v u → Drops (x :: v) (x :: u)

namespace Drops

theorem trans {a b c : List Nat} (h : Drops a b) (h' : Drops b c) : Drops a c := by
  induction h generalizing c with
  | here hlt =>
    cases h' with
    | here hlt' => exact .here (Nat.lt_trans hlt hlt')
    | later _ => exact .here hlt
  | later _ ih =>
    cases h' with
    | here hlt' => exact .here hlt'
    | later h' => exact .later (ih h')

theorem append_left {a b : List Nat} (h : Drops a b) (s : List Nat) : Drops (a ++ s) b := by
  induction h with
  | here hlt => exact .here hlt
  | later _ ih => exact .later ih

theorem append_right {a b : List Nat} (h : Drops a b) (s : List Nat) : Drops a (b ++ s) := by
  induction h with
  | here hlt => exact .here hlt
  | later _ ih => exact .later ih

theorem of_isPrefix {a b c : List Nat} (h : Drops a b) (hp : b <+: c) : Drops a c := by
  obtain ⟨s, rfl⟩ := hp
  exact h.append_right s

theorem of_isPrefix_left {a b c : List Nat} (hp : a <+: b) (h : Drops b c) :
    Drops a c ∨ a <+: c := by
  induction h generalizing a with
  | here hlt =>
    cases a with
    | nil => exact .inr (List.nil_prefix)
    | cons y a =>
      obtain ⟨rfl, -⟩ := List.cons_prefix_cons.1 hp
      exact .inl (.here hlt)
  | later _ ih =>
    cases a with
    | nil => exact .inr (List.nil_prefix)
    | cons y a =>
      obtain ⟨rfl, ha⟩ := List.cons_prefix_cons.1 hp
      exact (ih ha).imp .later fun h => List.cons_prefix_cons.2 ⟨rfl, h⟩

theorem append_same (p : List Nat) {a b : List Nat} (h : Drops a b) : Drops (p ++ a) (p ++ b) := by
  induction p with
  | nil => exact h
  | cons x p ih => exact .later ih

theorem acc_of_length_le (bound : Nat) :
    ∀ l : List Nat, l.length ≤ bound →
      Acc (fun a b => a.length ≤ bound ∧ Drops a b) l := by
  induction bound with
  | zero =>
    intro l hl
    obtain rfl := List.eq_nil_of_length_eq_zero (Nat.le_zero.1 hl)
    exact .intro _ fun _ h => nomatch h.2
  | succ bound ih =>
    have step : ∀ (x : Nat) (t : List Nat), t.length ≤ bound →
        Acc (fun a b => a.length ≤ bound + 1 ∧ Drops a b) (x :: t) := by
      intro x
      induction x using Nat.strongRecOn with
      | ind x ihx =>
        intro t ht
        induction ih t ht with
        | intro t _ iht =>
          refine .intro _ fun a h => ?_
          obtain ⟨ha, hd⟩ := h
          cases hd with
          | here hlt => exact ihx _ hlt _ (Nat.le_of_succ_le_succ ha)
          | later hd =>
            have hv := Nat.le_of_succ_le_succ ha
            exact iht _ ⟨hv, hd⟩ hv
    intro l hl
    cases l with
    | nil => exact .intro _ fun _ h => nomatch h.2
    | cons x t => exact step x t (Nat.le_of_succ_le_succ hl)

end Drops

/-! ## Frames -/

namespace Frame

theorem ahead_of_next_some {separator : Char} {f f' : Frame} {word : String}
    (h : f.next separator = .ok (some word) f') :
    f.ahead separator = .ok word :: f'.ahead separator := by
  fun_induction next separator f with
  | case1 f w words hw =>
    simp only [EStateM.Result.ok.injEq, Option.some.injEq] at h
    obtain ⟨rfl, rfl⟩ := h
    simp [ahead, hw]
  | case2 => simp at h
  | case3 => simp at h
  | case4 f hw line source hl words comment hs ih =>
    rw [← ih h]
    simp [ahead, hw, (Source.unread_of_nextLine_some hl).1, hs]

theorem ahead_of_next_none {separator : Char} {f f' : Frame}
    (h : f.next separator = .ok none f') :
    f.ahead separator = [] ∧ f'.ahead separator = [] := by
  fun_induction next separator f with
  | case1 => simp at h
  | case2 => simp at h
  | case3 f hw source hl =>
    obtain ⟨rfl, hu⟩ := Source.unread_of_nextLine_none hl
    simp only [EStateM.Result.ok.injEq, true_and] at h
    subst h
    simp [ahead, hw, hu]
  | case4 f hw line source hl words comment hs ih =>
    refine ⟨?_, (ih h).2⟩
    rw [← (ih h).1]
    simp [ahead, hw, (Source.unread_of_nextLine_some hl).1, hs]

end Frame

/-! ## Readers -/

namespace Reader

/-- The numbers of words left, from the root upwards. -/
def sizes (r : Reader) : List Nat :=
  ((r.top :: r.below).map fun f => (f.ahead r.separator).length).reverse

/-- `Before r' r`: going on from `r`, a reader may be in the state `r'` when it has given a
word. -/
structure Before (r' r : Reader) : Prop where
  limit : r'.limit = r.limit
  length : r'.sizes.length ≤ max r.sizes.length (r.limit + 1)
  drops : Drops r'.sizes r.sizes

/-- `Reaches r' r`: going on from `r`, a reader may be in the state `r'` when it has given all
its words. -/
structure Reaches (r' r : Reader) : Prop where
  limit : r'.limit = r.limit
  sizes : r'.sizes <+: r.sizes

theorem before_wf : WellFounded Before := by
  have bounded : ∀ (bound : Nat) (r : Reader), r.limit + 1 ≤ bound → r.sizes.length ≤ bound →
      Acc Before r := by
    intro bound r hb hl
    generalize hs : r.sizes = l at hl
    induction Drops.acc_of_length_le bound l hl generalizing r with
    | intro l _ ih =>
      refine .intro _ fun r' h => ?_
      have hl' : r'.sizes.length ≤ bound :=
        Nat.le_trans h.length (Nat.max_le.2 ⟨hs ▸ hl, hb⟩)
      exact ih _ ⟨hl', hs ▸ h.drops⟩ r' (h.limit ▸ hb) rfl hl'
  exact ⟨fun r => bounded (max r.sizes.length (r.limit + 1)) r (Nat.le_max_right _ _)
    (Nat.le_max_left _ _)⟩

theorem Before.trans {a b c : Reader} (h : Before a b) (h' : Before b c) : Before a c where
  limit := h.limit.trans h'.limit
  length := by
    have := h.length
    have := h'.length
    have := h'.limit
    omega
  drops := h.drops.trans h'.drops

theorem Before.reaches {a b c : Reader} (h : Before a b) (h' : Reaches b c) : Before a c where
  limit := h.limit.trans h'.limit
  length := by
    have := h.length
    have := h'.sizes.length_le
    have := h'.limit
    omega
  drops := h.drops.of_isPrefix h'.sizes

theorem Reaches.trans {a b c : Reader} (h : Reaches a b) (h' : Reaches b c) : Reaches a c where
  limit := h.limit.trans h'.limit
  sizes := h.sizes.trans h'.sizes

/-- `AtMost r' r`: going on from `r`, a reader may be in the state `r'`. -/
def AtMost (r' r : Reader) : Prop := Before r' r ∨ Reaches r' r

theorem Before.of_atMost {a b c : Reader} (h : Before a b) (h' : AtMost b c) : Before a c :=
  h'.elim h.trans h.reaches

theorem Reaches.atMost_of_before {a b c : Reader} (h : Reaches a b) (h' : Before b c) :
    AtMost a c := by
  have hl := h.limit.trans h'.limit
  refine (Drops.of_isPrefix_left h.sizes h'.drops).imp (fun hd => ⟨hl, ?_, hd⟩) fun hp => ⟨hl, hp⟩
  exact Nat.le_trans h.sizes.length_le h'.length

theorem AtMost.trans {a b c : Reader} (h : AtMost a b) (h' : AtMost b c) : AtMost a c :=
  h.elim (fun h => .inl (h.of_atMost h'))
    fun h => h'.elim h.atMost_of_before fun h' => .inr (h.trans h')

instance : WellFoundedRelation Reader := ⟨Before, before_wf⟩

theorem sizes_eq (r : Reader) :
    r.sizes = (r.below.map fun f => (f.ahead r.separator).length).reverse
      ++ [(r.top.ahead r.separator).length] := by
  simp [sizes]

theorem length_sizes (r : Reader) : r.sizes.length = r.below.length + 1 := by
  simp [sizes]

theorem before_of_next {r r' : Reader} {word : String} (h : r.next = .ok (some word) r') :
    Before r' r := by
  fun_induction next r with
  | case1 => simp at h
  | case2 r w top ht =>
    simp only [EStateM.Result.ok.injEq, Option.some.injEq] at h
    obtain ⟨rfl, rfl⟩ := h
    refine ⟨rfl, by rw [length_sizes, length_sizes]; exact Nat.le_max_left _ _, ?_⟩
    rw [sizes_eq, sizes_eq]
    refine Drops.append_same _ (.here ?_)
    rw [Frame.ahead_of_next_some ht]
    exact Nat.lt_succ_self _
  | case3 => simp at h
  | case4 r top ht frame below hb ih =>
    refine (ih h).reaches ⟨rfl, ?_⟩
    exact ⟨[(r.top.ahead r.separator).length], by simp [sizes, hb]⟩

theorem reaches_of_next {r r' : Reader} (h : r.next = .ok none r') : Reaches r' r := by
  fun_induction next r with
  | case1 => simp at h
  | case2 => simp at h
  | case3 r top ht hb =>
    simp only [EStateM.Result.ok.injEq, true_and] at h
    subst h
    refine ⟨rfl, ?_⟩
    obtain ⟨h0, h1⟩ := Frame.ahead_of_next_none ht
    simp [sizes, hb, h0, h1]
  | case4 r top ht frame below hb ih =>
    refine (ih h).trans ⟨rfl, ?_⟩
    exact ⟨[(r.top.ahead r.separator).length], by simp [sizes, hb]⟩

theorem before_of_includeSource {r r' s : Reader} {source : Source}
    (h : r.includeSource source = .ok () r') (hb : Before r s) : Before r' s := by
  unfold includeSource at h
  split at h
  · next hd =>
    simp only [EStateM.Result.ok.injEq, true_and] at h
    subst h
    refine ⟨hb.limit, ?_, ?_⟩
    · have := hb.limit
      simp only [length_sizes, List.length_cons, depth] at *
      omega
    · have : Drops (r.sizes ++ [(({ source := source } : Frame).ahead r.separator).length])
          s.sizes := hb.drops.append_left _
      simpa [sizes] using this
  · simp at h

end Reader

end KeepRules
