import Mathlib.Algebra.Group.Nat.Defs
import KeepRules.Proofs.Configuration.Continuation
import KeepRules.Proofs.Configuration.Replay
import KeepRules.Proofs.Configuration.Texts

/-! # Reading comes to an end

Directives are read in a loop; some directives have loops of their own, in which there may be
further loops; and whenever a word is read, exhausted sources are taken off and lines are loaded in
loops as well. An include makes the input longer.

* `Turn`: a turn of any of these loops. `Leads` says which turns a turn leads to: the next one of
  the same loop, or the first one of a loop inside.
* `wellFounded_leads`: there is no endless sequence of turns.
* `weight`: an include is paid for by the word that names the file, when each word is weighed by how
  many words it can stand for at its depth.
* `RunsIn`: the loop over directives ends after a number of turns, which is at most the weight
  of what is left (`RunsIn.le_weight`).
* `reading_ends`: both, for every source and every machine. -/

set_option autoImplicit false

namespace KeepRules

open KeepRules.Parser

/-! ## Turns -/

/-- The loops of single directives. -/
inductive InnerLoop where
  | entries (separator : Char)
  | filters
  | attributes
  | classModifiers
  | members (className : String)
  | modifiers
  | arguments

namespace InnerLoop

def State : InnerLoop → Type
  | entries _ => ClassPath
  | filters | attributes | arguments => List String
  | classModifiers | modifiers => Access
  | members _ => KeepRule

def Result : InnerLoop → Type
  | entries _ => ClassPath
  | filters | attributes | arguments => List String
  | classModifiers => Access
  | modifiers => Option (Access × String)
  | members _ => KeepRule

def loop (ctx : Context) : (i : InnerLoop) → Loop i.State i.Result
  | entries separator => ClassPath.entryLoop ctx separator
  | filters => ClassPath.filterLoop ctx
  | attributes => attributeLoop
  | classModifiers => KeepRule.classLoop
  | members className => KeepRule.memberLoop className
  | modifiers => KeepRule.modifierLoop
  | arguments => KeepRule.argumentLoop

/-- How deep loops are nested inside this one. -/
def rank : InnerLoop → Nat
  | entries _ | members _ => 1
  | _ => 0

end InnerLoop

/-- A turn of a loop that is about to be taken. -/
inductive Turn where
  /-- Of the loop over directives. -/
  | directive (config : Configuration) (c : Cursor)
  | inner (i : InnerLoop) (state : i.State) (c : Cursor)
  /-- Of the loop over open sources that looks for the next word. -/
  | source (r : Reader)
  /-- Of the loop over the lines of a source that looks for the next word. -/
  | line (separator : Char) (f : Frame)

namespace Turn

/-- The loops that are run in a turn. -/
inductive Runs : Turn → InnerLoop → Prop where
  | entries {config : Configuration} {c : Cursor} {separator : Char} :
      Runs (directive config c) (.entries separator)
  | attributes {config : Configuration} {c : Cursor} : Runs (directive config c) .attributes
  | classModifiers {config : Configuration} {c : Cursor} :
      Runs (directive config c) .classModifiers
  | members {config : Configuration} {c : Cursor} {className : String} :
      Runs (directive config c) (.members className)
  | filters {separator : Char} {path : ClassPath} {c : Cursor} :
      Runs (inner (.entries separator) path c) .filters
  | modifiers {className : String} {rule : KeepRule} {c : Cursor} :
      Runs (inner (.members className) rule c) .modifiers
  | arguments {className : String} {rule : KeepRule} {c : Cursor} :
      Runs (inner (.members className) rule c) .arguments

/-- The cursors at which a word may be read, or a loop started, in a turn. -/
inductive Visits (ctx : Context) : Turn → Cursor → Prop where
  | words {config : Configuration} {c c' : Cursor} {word keyword : String} {d : Directive}
      {ws : List String} : c.word = some word → Directive.lookup? word = some (keyword, d) →
      (Configuration.dispatched c keyword word).Reads ws c' → Visits ctx (directive config c) c'
  | inclusion {config : Configuration} {c c₁ c' : Cursor} {name : String} {source : Source} :
      Configuration.Includes ctx c name c₁ → Source.ofFile ctx.host name = .ok source →
      enter source c₁ = .ok () c' → Visits ctx (directive config c) c'
  | round {i : InnerLoop} {state : i.State} {c c' : Cursor} {ws : List String} :
      c.Reads ws c' → Visits ctx (inner i state c) c'

/-- `Leads t' t`: the turn `t` leads to the turn `t'`. -/
inductive Leads (ctx : Context) : Turn → Turn → Prop where
  | directive {config config' : Configuration} {c c' : Cursor} {word : String} :
      c.word = some word → Configuration.step ctx config word c = (config', .ok () c') →
      c'.word.isSome = true → Leads ctx (directive config' c') (directive config c)
  | inner {i : InnerLoop} {state state' : i.State} {c c' : Cursor} :
      (i.loop ctx).round state c = .ok (.again state') c' →
      Leads ctx (inner i state' c') (inner i state c)
  | nested {t : Turn} {i : InnerLoop} {state : i.State} {c : Cursor} :
      Runs t i → Visits ctx t c → Leads ctx (inner i state c) t
  | read {t : Turn} {c : Cursor} : Visits ctx t c → Leads ctx (source c.reader) t
  | source {r : Reader} {f g : Frame} {below : List Frame} :
      r.top.next r.separator = .ok none f → r.below = g :: below →
      Leads ctx
        (source { r with
          top := g, below := below, trail := .leaving r.depth f.source.origin :: r.trail })
        (source r)
  | lines {r : Reader} : Leads ctx (line r.separator r.top) (source r)
  | line {separator : Char} {f : Frame} {text : String} {rest : Source} :
      f.words = [] → f.source.nextLine = .ok (some text) rest →
      Leads ctx
        (line separator { f with
          source := rest
          words := (Word.ofLine separator text).1
          comments := Frame.joinComments f.comments (Word.ofLine separator text).2 })
        (line separator f)

section
variable {ctx : Context}

/-! ## Reading a word -/

theorem acc_line (separator : Char) (f : Frame) : Acc (Leads ctx) (line separator f) := by
  generalize hn : f.source.unread.length = n
  induction n using Nat.strongRecOn generalizing f with
  | ind n ih =>
    refine .intro _ fun t ht => ?_
    generalize hu : line separator f = u at ht
    cases ht with
    | line hw hl =>
      cases hu
      refine ih _ ?_ _ rfl
      rw [← hn, (Source.unread_of_nextLine_some hl).1]
      exact Nat.lt_succ_self _
    | nested hruns => subst hu; cases hruns
    | read hvisits => subst hu; cases hvisits
    | _ => cases hu

theorem acc_source (r : Reader) : Acc (Leads ctx) (source r) := by
  generalize hn : r.below.length = n
  induction n using Nat.strongRecOn generalizing r with
  | ind n ih =>
    refine .intro _ fun t ht => ?_
    generalize hu : source r = u at ht
    cases ht with
    | source hnone hbelow =>
      cases hu
      refine ih _ ?_ _ rfl
      rw [← hn, hbelow]
      exact Nat.lt_succ_self _
    | lines => exact acc_line _ _
    | nested hruns => subst hu; cases hruns
    | read hvisits => subst hu; cases hvisits
    | _ => cases hu

/-! ## Directives -/

theorem Runs.rank_lt {i j : InnerLoop} {state : i.State} {c : Cursor}
    (h : Runs (inner i state c) j) : j.rank < i.rank := by
  cases h <;> exact Nat.zero_lt_one

/-- Loops inside a loop are of lower rank, and the turns of one loop read words. -/
theorem acc_inner (i : InnerLoop) (state : i.State) (c : Cursor) :
    Acc (Leads ctx) (inner i state c) := by
  generalize hn : i.rank = n
  induction n using Nat.strongRecOn generalizing i state c with
  | ind n ih =>
    generalize hr : c.reader = r
    induction r using Reader.before_wf.induction generalizing state c with
    | _ r ihr =>
      refine .intro _ fun t ht => ?_
      generalize hu : inner i state c = u at ht
      cases ht with
      | inner hround =>
        cases hu
        exact ihr _ (hr ▸ (i.loop ctx).reads hround) _ _ rfl
      | nested hruns =>
        subst hu
        exact ih _ (hn ▸ hruns.rank_lt) _ _ _ rfl
      | read => exact acc_source _
      | _ => cases hu

/-- A directive reads words, also when it includes a file. -/
theorem acc_directive (config : Configuration) (c : Cursor) :
    Acc (Leads ctx) (directive config c) := by
  generalize hr : c.reader = r
  induction r using Reader.before_wf.induction generalizing config c with
  | _ r ih =>
    refine .intro _ fun t ht => ?_
    generalize hu : directive config c = u at ht
    cases ht with
    | directive hw hstep hw' =>
      cases hu
      have hp := Configuration.progress_of_step (congrArg Prod.snd hstep)
      exact ih _ (hr ▸ hp.before hw') _ _ rfl
    | nested => exact acc_inner _ _ _
    | read => exact acc_source _
    | _ => cases hu

theorem wellFounded_leads : WellFounded (Leads ctx) := by
  refine ⟨fun t => ?_⟩
  cases t with
  | directive config c => exact acc_directive config c
  | inner i state c => exact acc_inner i state c
  | source r => exact acc_source r
  | line separator f => exact acc_line separator f

end

end Turn

/-! ## The number of directives -/

/-- The numbers of words left, from the root upwards, each weighed by how many words a word at its
depth can stand for. -/
def weight (base : Nat) : Nat → List Nat → Nat
  | _, [] => 0
  | depth, n :: ns => n * base ^ depth + weight base (depth - 1) ns

section
variable {bound depth : Nat}

/-- All that comes above a place weighs less than one word there. -/
theorem weight_lt_pow {l : List Nat} (hl : l.length ≤ depth) (hb : ∀ n ∈ l, n ≤ bound) :
    weight (bound + 1) (depth - 1) l < (bound + 1) ^ depth := by
  induction l generalizing depth with
  | nil => exact Nat.pow_pos (Nat.succ_pos _)
  | cons n l ih =>
    obtain ⟨depth, rfl⟩ : ∃ d, depth = d + 1 := ⟨depth - 1, by rw [List.length_cons] at hl; omega⟩
    have hn : n * (bound + 1) ^ depth ≤ bound * (bound + 1) ^ depth :=
      Nat.mul_le_mul_right _ (hb n List.mem_cons_self)
    have hrest := ih (Nat.le_of_succ_le_succ hl) fun m hm => hb m (List.mem_cons_of_mem _ hm)
    rw [Nat.add_sub_cancel, weight, Nat.pow_succ, Nat.mul_succ, Nat.mul_comm _ bound]
    omega

/-- A number that gets lower outweighs whatever comes above it. -/
theorem weight_lt_of_drops (depth : Nat) {l' l : List Nat} (h : Drops l' l)
    (hl : l'.length ≤ depth + 1) (hb : ∀ n ∈ l'.tail, n ≤ bound) :
    weight (bound + 1) depth l' < weight (bound + 1) depth l := by
  induction h generalizing depth with
  | @here y x v u hlt =>
    have hrest : weight (bound + 1) (depth - 1) v < (bound + 1) ^ depth :=
      weight_lt_pow (Nat.le_of_succ_le_succ hl) hb
    have hx : (y + 1) * (bound + 1) ^ depth ≤ x * (bound + 1) ^ depth :=
      Nat.mul_le_mul_right _ hlt
    rw [Nat.succ_mul] at hx
    rw [weight, weight]
    omega
  | @later x v u hd ih =>
    rw [weight, weight]
    refine Nat.add_lt_add_left (ih _ ?_ fun n hn => hb n (List.mem_of_mem_tail hn)) _
    cases hd <;> (simp only [List.length_cons] at hl ⊢; omega)

end

namespace Source

/-- The number of words in a source, a line that cannot be read counting as one. -/
def size (separator : Char) (s : Source) : Nat :=
  (({ source := s } : Frame).ahead separator).length

end Source

namespace Reader

/-- What is known of a reader when no file has more words than the bound. -/
structure Bounded (bound : Nat) (r : Reader) : Prop where
  length : r.sizes.length ≤ r.limit + 1
  above : ∀ n ∈ r.sizes.tail, n ≤ bound

/-- Reading lowers one number, and takes off those after it. -/
theorem sizes_of_next {r r' : Reader} {word : Option String} (h : r.next = .ok word r') :
    ∃ lower n n' upper, r.sizes = lower ++ n :: upper ∧ r'.sizes = lower ++ [n'] ∧ n' ≤ n := by
  fun_induction next r with
  | case1 => simp at h
  | case2 r w top ht =>
    cases h
    refine ⟨_, _, _, [], sizes_eq r, sizes_eq _, ?_⟩
    rw [Frame.ahead_of_next_some ht]
    exact Nat.le_succ _
  | case3 r top ht hb =>
    cases h
    refine ⟨_, _, _, [], sizes_eq r, sizes_eq _, ?_⟩
    show (top.ahead r.separator).length ≤ _
    rw [(Frame.ahead_of_next_none ht).2]
    exact Nat.zero_le _
  | case4 r top ht frame below hb ih =>
    obtain ⟨lower, n, n', upper, hs, hs', hle⟩ := ih h
    refine ⟨lower, n, n', upper ++ [(r.top.ahead r.separator).length], ?_, hs', hle⟩
    rw [sizes_eq, hb, ← List.cons_append, ← List.append_assoc, ← hs]
    rfl

theorem Bounded.next {bound : Nat} {r r' : Reader} {word : Option String}
    (hr : r.Bounded bound) (h : r.next = .ok word r') : r'.Bounded bound := by
  obtain ⟨lower, n, n', upper, hs, hs', hle⟩ := sizes_of_next h
  have hlength := hr.length
  have habove := hr.above
  rw [hs] at hlength habove
  refine ⟨?_, fun m hm => ?_⟩
  · rw [hs', limit_of_next h]
    simp only [List.length_append, List.length_cons, List.length_nil] at hlength ⊢
    omega
  · rw [hs'] at hm
    cases lower with
    | nil => cases hm
    | cons k lower =>
      rcases List.mem_append.1 hm with hm | hm
      · exact habove m (List.mem_append_left _ hm)
      · rw [List.mem_singleton.1 hm]
        exact Nat.le_trans hle (habove n (List.mem_append_right _ List.mem_cons_self))

end Reader

namespace Configuration

section
variable {ctx : Context} {settings : Settings} {bound : Nat}

theorem bounded_of_reads {c c' : Cursor} {ws : List String} (h : c.Reads ws c')
    (hc : c.reader.Bounded bound) : c'.reader.Bounded bound := by
  induction h with
  | nil => exact hc
  | cons ha _ _ ih => exact ih (hc.next (Cursor.advance_eq_ok.1 ha))

theorem bounded_of_entered {c c' : Cursor} {source : Source}
    (h : Entered settings source c c') (hf : c.reader.Follows settings)
    (hsource : source.size settings.pathSeparator ≤ bound) (hc : c.reader.Bounded bound) :
    c'.reader.Bounded bound := by
  have hs : c'.reader.sizes = c.reader.sizes ++ [source.size settings.pathSeparator] := by
    show (c'.reader.stack.map _).reverse = (c.reader.stack.map _).reverse ++ _
    rw [h.stack, h.follows.1, hf.1, List.map_cons, List.reverse_cons]
    rfl
  have hlength : c.reader.sizes.length = c.reader.depth + 1 := Reader.length_sizes c.reader
  refine ⟨?_, fun n hn => ?_⟩
  · rw [hs, List.length_append, hlength, h.follows.2]
    exact Nat.succ_le_succ h.depth
  · rw [hs] at hn
    cases hsizes : c.reader.sizes with
    | nil => simp [hsizes] at hlength
    | cons k lower =>
      rw [hsizes] at hn
      rcases List.mem_append.1 hn with hn | hn
      · exact hc.above n (by rw [hsizes]; exact hn)
      · rw [List.mem_singleton.1 hn]
        exact hsource

/-- No file on the machine has more words than the bound. -/
def FilesWithin (ctx : Context) (separator : Char) (bound : Nat) : Prop :=
  ∀ name source, Source.ofFile ctx.host name = .ok source → source.size separator ≤ bound

theorem Proceeds.bounded {c c' : Cursor} (h : Proceeds ctx c c')
    (hfiles : FilesWithin ctx settings.pathSeparator bound) (hf : c.reader.Follows settings)
    (hc : c.reader.Bounded bound) : c'.reader.Bounded bound := by
  have hd : ∀ keyword word, (dispatched c keyword word).reader.Bounded bound :=
    fun _ _ => ⟨hc.length, hc.above⟩
  cases h with
  | words _ _ hp _ =>
    obtain ⟨m, hm, ha⟩ := hp
    exact (bounded_of_reads hm (hd _ _)).next (Cursor.advance_eq_ok.1 ha)
  | inclusion hincludes ho he ha =>
    have hf₁ := hincludes.later.follows hf
    obtain ⟨word, keyword, v, hr⟩ := hincludes.reads
    have hc₁ := bounded_of_reads hr (hd _ _)
    have hc₂ := bounded_of_entered (entered_of_enter hf₁ he) hf₁ (hfiles _ _ ho) hc₁
    exact hc₂.next (Cursor.advance_eq_ok.1 ha)

/-- The loop over directives ends with the outcome after this many turns. -/
inductive RunsIn (ctx : Context) : Nat → Configuration → Cursor → Outcome → Prop where
  | done {config : Configuration} {c : Cursor} :
      c.word = none → RunsIn ctx 0 config c (config, .ok () { c with
        reader := c.reader.record (.parsed config.keep.length (config.inJars.getD []).length
          (config.outJars.getD []).length) })
  | fails {config config' : Configuration} {c c' : Cursor} {word : String} {e : ParseError} :
      c.word = some word → step ctx config word c = (config', .error e c') →
      RunsIn ctx 1 config c (config', .error e c')
  | turn {config config' : Configuration} {c c' : Cursor} {word : String} {n : Nat}
      {o : Outcome} : c.word = some word → step ctx config word c = (config', .ok () c') →
      RunsIn ctx n config' c' o → RunsIn ctx (n + 1) config c o

/-- Reading the source ends in this way after so many turns of the loop over directives. -/
inductive ReadsIn (ctx : Context) (settings : Settings) (config : Configuration) (root : Source) :
    Nat → Configuration × Except ParseError Unit → Prop where
  | unreadable {e : ParseError} : Cursor.ofReader (.ofSource root settings) = .error e →
      ReadsIn ctx settings config root 0 (config, .error e)
  | run {c : Cursor} {n : Nat} {o : Outcome} :
      Cursor.ofReader (.ofSource root settings) = .ok c → RunsIn ctx n config c o →
      ReadsIn ctx settings config root n o.ending

theorem exists_runsIn (ctx : Context) (config : Configuration) (c : Cursor) :
    ∃ n, RunsIn ctx n config c (run ctx config c) := by
  fun_induction run ctx config c with
  | case1 config c hw => exact ⟨0, .done hw⟩
  | case2 config c word hw config' e c' hs => exact ⟨1, .fails hw hs⟩
  | case3 config c word hw config' c' hs ih =>
    obtain ⟨n, hn⟩ := ih
    exact ⟨n + 1, .turn hw hs hn⟩

theorem RunsIn.eq_zero {config : Configuration} {c : Cursor} {n : Nat} {o : Outcome}
    (h : RunsIn ctx n config c o) (hw : c.word = none) : n = 0 := by
  cases h with
  | done => rfl
  | fails hw' => exact absurd (hw.symm.trans hw') nofun
  | turn hw' => exact absurd (hw.symm.trans hw') nofun

/-- Each directive lowers the weight of what is left. -/
theorem RunsIn.le_weight {config : Configuration} {c : Cursor} {n : Nat} {o : Outcome}
    (h : RunsIn ctx n config c o) (hfiles : FilesWithin ctx settings.pathSeparator bound)
    (hf : c.reader.Follows settings) (hc : c.reader.Bounded bound) :
    n ≤ c.word.isSome.toNat + weight (bound + 1) settings.maxIncludeDepth c.reader.sizes := by
  induction h with
  | done hw => exact Nat.zero_le _
  | fails hw =>
    rw [hw]
    exact Nat.le_add_right _ _
  | @turn config config' c c' word n o hw hs hrun ih =>
    have hp := proceeds_of_step hw hs
    have hc' := hp.bounded hfiles hf hc
    have hf' := hp.follows hf
    have hn := ih hf' hc'
    rw [hw]
    cases hw' : c'.word with
    | none =>
      rw [hrun.eq_zero hw']
      exact Nat.le_add_right _ _
    | some w' =>
      have hb := (progress_of_step (congrArg Prod.snd hs)).before (by rw [hw']; rfl)
      have hlt := weight_lt_of_drops settings.maxIncludeDepth hb.drops
        (hf'.2 ▸ hc'.length) hc'.above
      rw [hw'] at hn
      simp only [Option.isSome_some, Bool.toNat_true] at hn ⊢
      omega

theorem exists_readsIn (ctx : Context) (settings : Settings) (config : Configuration)
    (root : Source) :
    ∃ n, ReadsIn ctx settings config root n (readInto ctx settings config root) := by
  unfold readInto
  cases h : Cursor.ofReader (.ofSource root settings) with
  | error e => exact ⟨0, .unreadable h⟩
  | ok c =>
    obtain ⟨n, hn⟩ := exists_runsIn ctx config c
    exact ⟨n, .run h hn⟩

theorem ReadsIn.le_weight {config : Configuration} {root : Source} {n : Nat}
    {o : Configuration × Except ParseError Unit} (h : ReadsIn ctx settings config root n o)
    (hfiles : FilesWithin ctx settings.pathSeparator bound) :
    n ≤ root.size settings.pathSeparator * (bound + 1) ^ settings.maxIncludeDepth := by
  cases h with
  | unreadable => exact Nat.zero_le _
  | @run c n o hc hrun =>
    have hstart : (Reader.ofSource root settings).Follows settings := ⟨rfl, rfl⟩
    have hbounded : (Reader.ofSource root settings).Bounded bound :=
      ⟨Nat.succ_le_succ (Nat.zero_le _), nofun⟩
    have hsizes : (Reader.ofSource root settings).sizes = [root.size settings.pathSeparator] := rfl
    unfold Cursor.ofReader at hc
    split at hc
    · next word r hn =>
      cases hc
      have hle := hrun.le_weight hfiles (hstart.next hn) (hbounded.next hn)
      cases word with
      | none =>
        rw [hrun.eq_zero rfl]
        exact Nat.zero_le _
      | some w =>
        have hlt := weight_lt_of_drops settings.maxIncludeDepth
          (Reader.before_of_next hn).drops ((hstart.next hn).2 ▸ (hbounded.next hn).length)
          (hbounded.next hn).above
        rw [hsizes, weight, weight, Nat.add_zero] at hlt
        simp only [Option.isSome_some, Bool.toNat_true] at hle
        omega
    · cases hc

/-- **Reading comes to an end**, whichever files include which. No turn of a loop leads to an
endless sequence of turns, and reading a source ends, in success or with an error, after a number of
directives that the numbers of words in the root and in the files limit. -/
theorem reading_ends (ctx : Context) :
    WellFounded (Turn.Leads ctx) ∧
      ∀ (settings : Settings) (config : Configuration) (root : Source),
        ∃ n, ReadsIn ctx settings config root n (readInto ctx settings config root) ∧
          ∀ bound, FilesWithin ctx settings.pathSeparator bound →
            n ≤ root.size settings.pathSeparator * (bound + 1) ^ settings.maxIncludeDepth := by
  refine ⟨Turn.wellFounded_leads, fun settings config root => ?_⟩
  obtain ⟨n, hn⟩ := exists_readsIn ctx settings config root
  exact ⟨n, hn, fun bound hfiles => hn.le_weight hfiles⟩

theorem filesWithin_fileContext {separator : Char} {name text : String}
    (h : (Word.list separator text).length ≤ bound) :
    FilesWithin (fileContext name text) separator bound := by
  intro name' source ho
  by_cases hn : name' = name
  · subst hn
    have hfile : Source.ofFile (fileContext name' text).host name' = .ok (.ofText name' text) :=
      Source.ofFile_toUTF8 (if_pos rfl)
    obtain rfl := Except.ok.inj (hfile.symm.trans ho)
    rw [Source.size, Frame.ahead_of_text, List.length_map]
    exact h
  · have hopen : (fileContext name text).host.openFile name' = .error .notFound := if_neg hn
    rw [Source.ofFile, hopen] at ho
    cases ho

/-- A file that includes itself. -/
theorem reading_ends_of_cycle :
    FilesWithin (fileContext "n" "-verbose\n@n") ':' 3 ∧
      ∃ n, ReadsIn (fileContext "n" "-verbose\n@n") { maxIncludeDepth := 2 } {}
          (.ofText "root" "@n") n
          (readInto (fileContext "n" "-verbose\n@n") { maxIncludeDepth := 2 } {}
            (.ofText "root" "@n")) ∧ n ≤ 32 := by
  have hfiles : FilesWithin (fileContext "n" "-verbose\n@n") ':' 3 :=
    filesWithin_fileContext (by decide)
  obtain ⟨n, hn, hle⟩ := (reading_ends (fileContext "n" "-verbose\n@n")).2
    { maxIncludeDepth := 2 } {} (.ofText "root" "@n")
  have hsize : (Source.ofText "root" "@n").size ':' = 2 := by
    rw [Source.size, Frame.ahead_of_text]
    rfl
  refine ⟨hfiles, n, hn, ?_⟩
  have := hle 3 hfiles
  rwa [hsize] at this

end

end Configuration

end KeepRules
