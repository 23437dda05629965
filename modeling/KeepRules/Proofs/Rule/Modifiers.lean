import KeepRules.Proofs.Agreement
import KeepRules.Proofs.Rule.Parsing

/-! # Runs of modifiers

What a run of modifiers asks for depends on which of them occur in it, not on their order or number.

* `Access.requireAll`: a run of modifiers, one after the other. It is accepted exactly if it is
  consistent (`requireAll_eq_ok_iff`), and a modifier that has occurred before adds nothing
  (`requireAll_repeated`).
* `Collects`: a parser that goes on from each modifier with what has been asked for so far, as those
  for the rest of a rule do from its keyword on (`KeepRule.collects_headFrom`) and from the start of
  a member on (`KeepRule.collects_membersFrom`).
* `Landmark`: two cursors that read the same words up to a `{` or a `;`. Readings of a rule agree
  unless they come to this word where a member may follow (`Landmark.parser`).
* `ModifierPlace`: the words of a rule in front of which its modifiers can stand.
  `KeepRule.parser_of_place`: readings of two rules that begin with such words end in the same way,
  or they both come to collect modifiers there. -/

set_option autoImplicit false

namespace KeepRules

/-! ## Asking for modifiers one by one -/

theorem Mark.Consistent.of_subset {u v : List Mark} (h : Consistent v) (hs : u ⊆ v) :
    Consistent u := fun m ht hf => h m (hs ht) (hs hf)

namespace Access

/-- Asks for each of the modifiers, until one of them conflicts with those before. -/
def requireAll (access : Access) (marks : List Mark) : Except ModifierError Access :=
  marks.foldlM (fun a m => a.require (.singleton m.modifier) m.present) access

theorem requireAll_cons (access : Access) (m : Mark) (marks : List Mark) :
    access.requireAll (m :: marks) =
      access.require (.singleton m.modifier) m.present >>= fun a => a.requireAll marks :=
  List.foldlM_cons

theorem requireAll_append (access : Access) (u v : List Mark) :
    access.requireAll (u ++ v) = access.requireAll u >>= fun a => a.requireAll v :=
  List.foldlM_append

theorem ofMarks_eq_of_mem {u v : List Mark} (h : ∀ m, m ∈ u ↔ m ∈ v) : ofMarks u = ofMarks v :=
  ext_mem (fun m => by simp [h]) (fun m => by simp [h])

theorem require_eq_error {a : Access} {s : ModifierSet} {present : Bool} {e : ModifierError}
    (h : a.require s present = .error e) : ∃ modifiers, e = .conflicting modifiers :=
  ⟨_, (require_eq_error_iff.1 h).2⟩

theorem requireAll_eq_error {a : Access} {marks : List Mark} {e : ModifierError}
    (h : a.requireAll marks = .error e) : ∃ modifiers, e = .conflicting modifiers := by
  induction marks generalizing a with
  | nil => cases h
  | cons m marks ih =>
    rw [requireAll_cons] at h
    cases hr : a.require (.singleton m.modifier) m.present with
    | error e' =>
      rw [hr] at h
      cases h
      exact require_eq_error hr
    | ok b =>
      rw [hr] at h
      exact ih h

theorem requireAll_ofMarks {u v : List Mark} {a : Access} (hu : Mark.Consistent u) :
    (ofMarks u).requireAll v = .ok a ↔ a = ofMarks (u ++ v) ∧ Mark.Consistent (u ++ v) := by
  induction v generalizing u with
  | nil =>
    rw [List.append_nil]
    exact ⟨fun h => ⟨(Except.ok.inj h).symm, hu⟩, fun h => congrArg Except.ok h.1.symm⟩
  | cons m v ih =>
    rw [requireAll_cons, show u ++ m :: v = u ++ [m] ++ v from by simp]
    cases hr : (ofMarks u).require (.singleton m.modifier) m.present with
    | ok b =>
      obtain ⟨rfl, hm⟩ := require_ofMarks.1 hr
      exact ih hm
    | error e =>
      refine ⟨nofun, fun h => ?_⟩
      have hm : Mark.Consistent (u ++ [m]) := h.2.of_append
      rw [require_ofMarks.2 ⟨rfl, hm⟩] at hr
      cases hr

/-- A run of modifiers is accepted exactly if it is consistent. -/
theorem requireAll_eq_ok_iff {marks : List Mark} {a : Access} :
    requireAll {} marks = .ok a ↔ a = ofMarks marks ∧ Mark.Consistent marks :=
  @requireAll_ofMarks [] marks a nofun

/-- Runs with the same modifiers, in any order and any number of times. -/
theorem requireAll_of_mem {u v : List Mark} (h : ∀ m, m ∈ u ↔ m ∈ v) {a : Access} :
    requireAll {} u = .ok a ↔ requireAll {} v = .ok a := by
  rw [requireAll_eq_ok_iff, requireAll_eq_ok_iff, ofMarks_eq_of_mem h]
  have hc : Mark.Consistent u ↔ Mark.Consistent v :=
    ⟨fun hu => hu.of_subset fun m => (h m).2, fun hv => hv.of_subset fun m => (h m).1⟩
  rw [hc]

/-- A modifier that has occurred before changes nothing, neither the constraint nor the error. -/
theorem requireAll_repeated {u v : List Mark} {m : Mark} (h : m ∈ u) :
    requireAll {} (u ++ m :: v) = requireAll {} (u ++ v) := by
  have hsame : ∀ k, k ∈ u ++ [m] ↔ k ∈ u := by
    intro k
    rw [List.mem_append, List.mem_singleton, or_iff_left_iff_imp]
    exact fun he => he ▸ h
  rw [requireAll_append, requireAll_append]
  cases hu : requireAll {} u with
  | error e => rfl
  | ok a =>
    obtain ⟨rfl, hc⟩ := requireAll_eq_ok_iff.1 hu
    have hm : (ofMarks u).require (.singleton m.modifier) m.present = .ok (ofMarks u) := by
      rw [require_ofMarks, ofMarks_eq_of_mem hsame]
      exact ⟨rfl, hc.of_subset fun k => (hsame k).1⟩
    show (ofMarks u).requireAll (m :: v) = (ofMarks u).requireAll v
    rw [requireAll_cons, hm]
    rfl

end Access

/-! ## Parsers that collect modifiers -/

open KeepRules.Parser

/-- From each modifier of the vocabulary the parser goes on with what has been asked for so far, or
it fails with the conflict. What it does depends on nothing but the words that it reads. -/
structure Collects {α : Type} (vocabulary : ModifierSet) (q : Access → Parser α) : Prop where
  reads : ∀ {m : Mark} {a : Access} {c c₁ : Cursor}, m.modifier ∈ vocabulary →
    c.Reads [m.word] c₁ →
    q a c = (liftModifier (a.require (.singleton m.modifier) m.present) >>= q) c₁
  fresh : ∀ a, Fresh (q a)
  respects : ∀ (S : Pairing) a, Respects S.Within (q a) fun _ => S.Paired

namespace Collects

variable {α : Type} {vocabulary : ModifierSet} {q : Access → Parser α}

/-- A run of modifiers is collected up to its end, or up to the first conflict. -/
theorem readsAll (h : Collects vocabulary q) {marks : List Mark}
    (hm : ∀ m ∈ marks, m.modifier ∈ vocabulary) {a : Access} {c g : Cursor}
    (hr : c.Reads (marks.map Mark.word) g) :
    (∃ b, a.requireAll marks = .ok b ∧ q a c = q b g) ∨
      ∃ e location c', a.requireAll marks = .error e ∧
        q a c = .error (.rejected (.modifier e) location) c' := by
  induction marks generalizing a c with
  | nil =>
    rw [List.map_nil, Cursor.Reads.nil_iff] at hr
    exact .inl ⟨a, rfl, by rw [hr]⟩
  | cons m marks ih =>
    rw [List.map_cons] at hr
    obtain ⟨c₁, h₁, hr⟩ := Cursor.Reads.cons_iff.1 hr
    rw [h.reads (hm m List.mem_cons_self) h₁, Access.requireAll_cons]
    cases hq : a.require (.singleton m.modifier) m.present with
    | error e => exact .inr ⟨e, _, _, rfl, rfl⟩
    | ok b => exact ih (fun k hk => hm k (List.mem_cons_of_mem _ hk)) hr

/-- Readings that go on alike, whatever modifiers they have read last. -/
theorem agree (h : Collects vocabulary q) (S : Pairing) {a : Access} {c c' : Cursor}
    (hc : S.Within c { c' with word := c.word }) : Agree (fun _ => S.Paired) (q a c) (q a c') := by
  have hsame := h.respects S a _ _ hc
  have hfresh := h.fresh a { c' with word := c.word } c' rfl
  cases hr : q a { c' with word := c.word } with
  | ok b c₁ =>
    rw [hr] at hsame hfresh
    obtain ⟨c₁', hr', rfl⟩ := hfresh.of_ok
    rw [hr']
    exact hsame
  | error e c₁ =>
    rw [hr] at hsame hfresh
    obtain ⟨e', c₁', hr', he⟩ := hfresh.of_error
    rw [hr']
    generalize q a c = r at hsame
    cases hsame with
    | error he' => exact .error (he'.trans he)

end Collects

/-- A loop whose next round adds a modifier, and what comes after the loop. -/
theorem Loop.run_bind_of_require {β γ : Type} {l : Loop Access β} {k : β → Parser γ} {a : Access}
    {c c₁ : Cursor} {r : Except ModifierError Access}
    (h : l.round a c = (liftModifier r >>= fun b => pure (.again b)) c₁) :
    (l.run a >>= k) c = (liftModifier r >>= fun b => l.run b >>= k) c₁ := by
  rw [bind_apply, run_apply, h]
  cases r with
  | ok b => exact bind_apply.symm
  | error e => rfl

namespace KeepRule

/-- The modifiers that may stand in front of `class`. -/
def classVocabulary : ModifierSet := .ofList [.accPublic, .accFinal, .accAbstract]

theorem classRound_of_mark {m : Mark} {a : Access} {c c₁ : Cursor}
    (hm : m.modifier ∈ classVocabulary) (hr : c.Reads [m.word] c₁) :
    classRound a c = (liftModifier (a.require (.singleton m.modifier) m.present) >>=
      fun b => pure (.again b)) c₁ := by
  have hread : readWord .classKeyword c = .ok m.word c₁ :=
    readWord_iff.2 ⟨hr, m.starts_word⟩
  have hclass : m.word ≠ "class" := by
    obtain ⟨n, present⟩ := m
    cases present <;> cases n <;> decide
  have hinterface : m.modifier ≠ .accInterface := by
    rintro he
    rw [he] at hm
    exact absurd hm (by decide)
  have hkeyword : Modifier.ofClassKeyword? m.modifier.keyword = some m.modifier := by
    refine Modifier.ofClassKeyword?_eq_some.2 ⟨Modifier.ofKeyword?_keyword _, ?_⟩
    exact Modifier.mem_forClass.2 (.inr (ModifierSet.mem_ofList.1 hm))
  have hget : getOrReject (some m.modifier) .unexpectedKeyword c₁ = .ok m.modifier c₁ := rfl
  unfold classRound
  simp only [bind_apply, hread, if_neg hclass, m.stripNegator_word, hkeyword, hget,
    if_neg hinterface]

theorem modifierRound_of_mark {m : Mark} {a : Access} {c c₁ : Cursor}
    (hm : m.modifier ∈ ModifierSet.forMember) (hr : c.Reads [m.word] c₁) :
    modifierRound a c = (liftModifier (a.require (.singleton m.modifier) m.present) >>=
      fun b => pure (.again b)) c₁ := by
  have hread : readWord .member c = .ok m.word c₁ := readWord_iff.2 ⟨hr, m.starts_word⟩
  have hbrace : (m.word == "\x7d") = false := by
    obtain ⟨n, present⟩ := m
    cases present <;> cases n <;> decide
  have hkeyword : Modifier.ofMemberKeyword? m.modifier.keyword = some m.modifier :=
    Modifier.ofMemberKeyword?_eq_some.2 ⟨Modifier.ofKeyword?_keyword _, hm⟩
  unfold modifierRound
  simp only [bind_apply, hread, hbrace, Bool.and_false, m.stripNegator_word, hkeyword,
    Bool.false_eq_true, if_false]

/-- A rule, once its modifiers have been read. -/
def named (intent : KeepIntent) (comments : Option String) (access : Access) :
    Parser KeepRule := do
  let name ← readPattern .className
  advance
  let extendsName ← clause? ["implements", "extends"] .className
  let asName ← clause? ["as"] .newClassName
  block name
    { access := access
      className := if name = "*" then none else some (ClassName.toInternal name)
      extendsName := extendsName
      asName := asName
      intent := intent
      comments := comments }

/-- A rule, when some of its modifiers have been read. -/
def headFrom (intent : KeepIntent) (comments : Option String) (access : Access) :
    Parser KeepRule := classLoop.run access >>= named intent comments

theorem parser_eq_headFrom (intent : KeepIntent) (comments : Option String) :
    parser intent comments = headFrom intent comments {} := rfl

theorem collects_headFrom (intent : KeepIntent) (comments : Option String) :
    Collects classVocabulary (headFrom intent comments) where
  reads hm hr := Loop.run_bind_of_require (classRound_of_mark hm hr)
  fresh a := (Fresh.loop (fun _ => Fresh.readWord.bind _) a).bind _
  respects S a := S.classLoop.bind fun _ => S.readPattern.bind fun _ => S.advance.bind fun _ =>
    (S.clause? (by decide)).bind fun _ => (S.clause? (by decide)).bind fun _ => S.block

/-- The members that are left, and the `}` after them. -/
def members (className : String) (rule : KeepRule) : Parser KeepRule := do
  let rule ← (memberLoop className).run rule
  advance
  return rule

theorem block_of_word {className : String} {rule : KeepRule} {c : Cursor} {w : String}
    (hw : c.word = some w) (hs : Directive.starts w = false) :
    block className rule c =
      if w = "\x7b" then members className rule c else reject .expectedOpening c := by
  have hend : Parser.atEnd c = .ok false c := atEnd_eq_ok.2 ⟨by simp [Cursor.atEnd, hw, hs], rfl⟩
  have his : Parser.isAt "\x7b" c = .ok (w == "\x7b") c :=
    isAt_eq_ok.2 ⟨by simp [Cursor.is, hw], rfl⟩
  unfold block
  rw [bind_apply, hend]
  simp only [Bool.false_eq_true, if_false]
  rw [bind_apply, his]
  by_cases hb : w = "\x7b"
  · rw [if_pos hb, beq_iff_eq.2 hb]
    rfl
  · rw [if_neg hb, beq_eq_false_iff_ne.2 hb]
    rfl

/-- The members that are left, once the modifiers of the first of them have been read. -/
def membersAfter (className : String) (rule : KeepRule) : Option (Access × String) → Parser KeepRule
  | none => do
    advance
    return rule
  | some (access, word) => member className rule access word >>= members className

/-- The members that are left, when some of the modifiers of the first of them have been read. -/
def membersFrom (className : String) (rule : KeepRule) (access : Access) : Parser KeepRule :=
  modifierLoop.run access >>= membersAfter className rule

theorem members_eq_membersFrom (className : String) (rule : KeepRule) :
    members className rule = membersFrom className rule {} := by
  funext c
  unfold members membersFrom
  have hround : (memberLoop className).round rule c = memberRound className rule c := rfl
  rw [bind_apply, bind_apply, Loop.run_apply, hround, memberRound, bind_apply]
  cases modifierLoop.run {} c with
  | error e c₁ => rfl
  | ok head c₁ =>
    cases head with
    | none => rfl
    | some head =>
      simp only [membersAfter, members, bind_apply]
      cases member className rule head.1 head.2 c₁ <;> rfl

theorem collects_membersFrom (className : String) (rule : KeepRule) :
    Collects .forMember (membersFrom className rule) where
  reads hm hr := Loop.run_bind_of_require (modifierRound_of_mark hm hr)
  fresh a := (Fresh.loop (fun _ => Fresh.readWord.bind _) a).bind _
  respects S a := by
    refine S.modifierLoop.bind fun head => ?_
    cases head with
    | none => exact S.advance.bind fun _ => .pure fun _ _ h => h
    | some head =>
      exact S.member.bind fun _ => S.memberLoop.bind fun _ => S.advance.bind fun _ =>
        .pure fun _ _ h => h

end KeepRule

/-! ## Up to a landmark -/

/-- What relates failures for the same cause, and what a parser goes on with, relates the whole. -/
theorem Parser.Agree.bind {α β : Type} {p : Parser α} {f : α → Parser β} {c c' : Cursor}
    {Q : α → Cursor → Cursor → Prop}
    {R : EStateM.Result ParseError Cursor β → EStateM.Result ParseError Cursor β → Prop}
    (h : Agree Q (p c) (p c'))
    (herror : ∀ e e' c c', e.cause = e'.cause → R (.error e c) (.error e' c'))
    (hok : ∀ a c c', Q a c c' → R (f a c) (f a c')) : R ((p >>= f) c) ((p >>= f) c') := by
  rw [bind_apply, bind_apply]
  cases hr : p c with
  | error e c₁ =>
    obtain ⟨e', c₁', hr', he⟩ := (hr ▸ h).of_error
    rw [hr']
    exact herror e e' c₁ c₁' he
  | ok a c₁ =>
    obtain ⟨c₁', hr', hq⟩ := (hr ▸ h).of_ok
    rw [hr']
    exact hok a c₁ c₁' hq

/-- The rounds of two runs agree, or the runs go on alike from two given cursors. -/
theorem Parser.Respects.loop_until {α β : Type} {l : Loop α β} {P : Cursor → Cursor → Prop}
    {Q : β → Cursor → Cursor → Prop} {m m' : Cursor}
    (h : ∀ a, Respects P (l.round a) (Leaves (fun c c' => P c c' ∨ c = m ∧ c' = m') Q)) (a : α)
    {c c' : Cursor} (hc : P c c') :
    Agree Q (l.run a c) (l.run a c') ∨
      ∃ a₁, l.run a c = l.run a₁ m ∧ l.run a c' = l.run a₁ m' := by
  show Agree Q (l.runFrom a c) (l.run a c') ∨
    ∃ a₁, l.runFrom a c = l.run a₁ m ∧ l.run a c' = l.run a₁ m'
  -- the rounds of the first run, each with its counterpart in the second
  fun_induction Loop.runFrom l a c generalizing c' with
  | case1 a c e c₁ hr =>
    obtain ⟨e', c₁', hr', he⟩ := (hr ▸ h a c c' hc).of_error
    rw [Loop.run_apply, hr']
    exact .inl (.error he)
  | case2 a c b c₁ hr =>
    obtain ⟨c₁', hr', hq⟩ := (hr ▸ h a c c' hc).of_ok
    rw [Loop.run_apply, hr']
    exact .inl (.ok hq)
  | case3 a c a' c₁ hr ih =>
    obtain ⟨c₁', hr', hp⟩ := (hr ▸ h a c c' hc).of_ok
    rw [Loop.run_apply (a := a), hr']
    rcases hp with hp | ⟨rfl, rfl⟩
    · exact ih hp
    · exact .inr ⟨a', rfl, rfl⟩

/-- A word that opens a block or ends a member, and the cursors at which two readings come to it. -/
structure Landmark where
  word : String
  word_mem : word ∈ ["\x7b", ";"]
  here : Cursor
  there : Cursor

/-- Both cursors are at the same word, and it starts no directive. -/
def Cursor.Astray (c c' : Cursor) : Prop :=
  ∃ w, c.word = some w ∧ c'.word = some w ∧ Directive.starts w = false

namespace Landmark

variable (L : Landmark)

/-- The landmark is ahead of both cursors, with the same words in front of it. -/
def Nearing (c c' : Cursor) : Prop :=
  ∃ ws, (∀ w ∈ ws, Directive.starts w = false) ∧ c.Reads (ws ++ [L.word]) L.here ∧
    c'.Reads (ws ++ [L.word]) L.there

/-- The landmark has just been read. -/
def Reached (c c' : Cursor) : Prop := c = L.here ∧ c' = L.there

/-- The word that has just been read stands in front of the landmark, or it is the landmark. -/
structure At (w : String) (c c' : Cursor) : Prop where
  word : c.word = some w
  word' : c'.word = some w
  notStart : Directive.starts w = false
  place : L.Nearing c c' ∨ w = L.word ∧ L.Reached c c'

/-- The landmark has not been passed. -/
def Along (c c' : Cursor) : Prop := ∃ w, L.At w c c'

/-- What holds of both landmarks. -/
theorem forall_word {P : String → Prop} (h : ∀ w ∈ ["\x7b", ";"], P w) : P L.word :=
  h L.word L.word_mem

theorem word_ne {w : String} (hw : w ∉ ["\x7b", ";"]) : w ≠ L.word := fun h => hw (h ▸ L.word_mem)

variable {L}

theorem At.nearing {w : String} {c c' : Cursor} (h : L.At w c c') (hw : w ≠ L.word) :
    L.Nearing c c' := h.place.resolve_right fun hr => hw hr.1

theorem Along.astray {c c' : Cursor} (h : L.Along c c') : c.Astray c' := by
  obtain ⟨w, hw⟩ := h
  exact ⟨w, hw.word, hw.word', hw.notStart⟩

theorem Nearing.reads {c c' : Cursor} (h : L.Nearing c c') :
    ∃ w c₁ c₁', c.Reads [w] c₁ ∧ c'.Reads [w] c₁' ∧ L.At w c₁ c₁' := by
  obtain ⟨ws, hs, hr, hr'⟩ := h
  cases ws with
  | nil =>
    have hstarts : Directive.starts L.word = false :=
      L.forall_word (P := fun w => Directive.starts w = false) (by decide)
    exact ⟨_, _, _, hr, hr', (Cursor.Reads.singleton_iff.1 hr).2,
      (Cursor.Reads.singleton_iff.1 hr').2, hstarts, .inr ⟨rfl, rfl, rfl⟩⟩
  | cons w ws =>
    obtain ⟨c₁, h₁, hr⟩ := Cursor.Reads.cons_iff.1 hr
    obtain ⟨c₁', h₁', hr'⟩ := Cursor.Reads.cons_iff.1 hr'
    exact ⟨w, c₁, c₁', h₁, h₁', (Cursor.Reads.singleton_iff.1 h₁).2,
      (Cursor.Reads.singleton_iff.1 h₁').2, hs w List.mem_cons_self,
      .inl ⟨ws, fun v hv => hs v (List.mem_cons_of_mem _ hv), hr, hr'⟩⟩

variable (L)

theorem advance : Respects L.Nearing Parser.advance fun _ => L.Along := by
  intro c c' hc
  obtain ⟨w, c₁, c₁', h₁, h₁', hw⟩ := hc.reads
  rw [(Cursor.Reads.singleton_iff.1 h₁).1, (Cursor.Reads.singleton_iff.1 h₁').1]
  exact .ok ⟨w, hw⟩

theorem readWord {what : Expected} : Respects L.Nearing (Parser.readWord what) L.At := by
  intro c c' hc
  obtain ⟨w, c₁, c₁', h₁, h₁', hw⟩ := hc.reads
  rw [readWord_iff.2 ⟨h₁, hw.notStart⟩, readWord_iff.2 ⟨h₁', hw.notStart⟩]
  exact .ok hw

/-- The landmark is no pattern. -/
theorem checkPattern {w : String} {what : Expected} :
    Respects (L.At w) (Parser.checkPattern w what) fun _ => L.Nearing := by
  refine .ite (fun hw => .pure fun c c' h => h.nearing ?_) fun _ => .reject
  rintro rfl
  have hpattern : Identifier.isPattern L.word = false :=
    L.forall_word (P := fun w => Identifier.isPattern w = false) (by decide)
  rw [hpattern] at hw
  cases hw

theorem readPattern {what : Expected} :
    Respects L.Nearing (Parser.readPattern what) fun _ => L.Nearing :=
  L.readWord.bind fun _ => L.checkPattern.bind fun _ => .pure fun _ _ h => h

/-! ### The head of a rule -/

/-- The landmark is no modifier and no keyword of a class. -/
theorem getClassKeyword {w : String} {reason : Reason} :
    Respects (L.At w)
      (Parser.getOrReject (Modifier.ofClassKeyword? (Word.stripNegator w).1) reason)
      fun _ => L.Nearing := by
  cases hm : Modifier.ofClassKeyword? (Word.stripNegator w).1 with
  | none => exact .reject
  | some m =>
    refine .pure fun c c' h => h.nearing ?_
    rintro rfl
    have hnone : Modifier.ofClassKeyword? (Word.stripNegator L.word).1 = none :=
      L.forall_word (P := fun w => Modifier.ofClassKeyword? (Word.stripNegator w).1 = none)
        (by decide)
    rw [hnone] at hm
    cases hm

theorem classLoop {access : Access} :
    Respects L.Nearing (KeepRule.classLoop.run access) fun _ => L.Nearing := by
  refine .loop (fun access => ?_) access
  refine L.readWord.bind fun word => .ite (fun hw => ?_) fun _ => ?_
  · exact .pure fun c c' h => h.nearing (hw ▸ L.word_ne (by decide))
  · refine L.getClassKeyword.bind fun m => Respects.liftModifier.bind fun _ =>
      .pure fun c c' h => ?_
    split
    · exact h
    · exact h

theorem clause? {keywords : List String} {what : Expected}
    (hk : ∀ k ∈ keywords, k ∉ ["\x7b", ";"]) :
    Respects L.Along (KeepRule.clause? keywords what) fun _ => L.Along := by
  rintro c c' ⟨w, hw⟩
  have hany : keywords.any c'.is = keywords.any c.is := by
    unfold Cursor.is
    rw [hw.word, hw.word']
  have hname : Respects L.Nearing (do
      let name ← Parser.readPattern what
      Parser.advance
      return some (ClassName.toInternal name)) fun _ => L.Along :=
    L.readPattern.bind fun _ => L.advance.bind fun _ => .pure fun _ _ h => h
  unfold KeepRule.clause?
  rw [hany]
  split
  · next hin =>
    obtain ⟨k, hmem, his⟩ := List.any_eq_true.1 hin
    have hkw : w = k := Option.some.inj (hw.word.symm.trans (beq_iff_eq.1 his))
    exact hname c c' (hw.nearing (hkw ▸ L.word_ne (hk k hmem)))
  · exact .ok ⟨w, hw⟩

/-! ### Members -/

/-- What stands in front of a member: nothing but the end of the block, or its first word. -/
def AtHead (head : Option (Access × String)) (c c' : Cursor) : Prop :=
  match head with
  | none => L.Nearing c c'
  | some (_, word) => L.At word c c'

theorem modifierLoop {access : Access} :
    Respects L.Nearing (KeepRule.modifierLoop.run access) L.AtHead := by
  refine .loop (fun access => ?_) access
  refine L.readWord.bind fun word => .ite (fun hw => ?_) fun _ => ?_
  · have hbrace : word = "\x7d" := beq_iff_eq.1 (Bool.and_eq_true_iff.1 hw).2
    exact .pure fun c c' h => h.nearing (hbrace ▸ L.word_ne (by decide))
  · cases hm : Modifier.ofMemberKeyword? (Word.stripNegator word).1 with
    | none => exact .pure fun c c' h => h
    | some m =>
      refine Respects.liftModifier.bind fun _ => .pure fun c c' h => h.nearing ?_
      rintro rfl
      have hnone : Modifier.ofMemberKeyword? (Word.stripNegator L.word).1 = none :=
        L.forall_word (P := fun w => Modifier.ofMemberKeyword? (Word.stripNegator w).1 = none)
          (by decide)
      rw [hnone] at hm
      cases hm

theorem argumentLoop {arguments : List String} :
    Respects L.Nearing (KeepRule.argumentLoop.run arguments) fun _ => L.Nearing := by
  refine .loop (fun arguments => ?_) arguments
  refine L.readWord.bind fun word => .ite (fun hw => ?_) fun _ => ?_
  · have hparen : word = ")" := beq_iff_eq.1 (Bool.and_eq_true_iff.1 hw).2
    exact .pure fun c c' h => h.nearing (hparen ▸ L.word_ne (by decide))
  · refine L.checkPattern.bind fun _ => L.readWord.bind fun separator =>
      .ite (fun hs => ?_) fun _ => .ite (fun hs => ?_) fun _ => .reject
    · exact .pure fun c c' h => h.nearing (hs ▸ L.word_ne (by decide))
    · exact .pure fun c c' h => h.nearing (hs ▸ L.word_ne (by decide))

theorem expectSeparator : Respects L.Nearing KeepRule.expectSeparator fun _ => L.Along :=
  L.readWord.bind fun w => .ite (fun _ => .pure fun _ _ h => ⟨w, h⟩) fun _ => .reject

theorem wildcard {rule : KeepRule} {access : Access} {fields methods : Bool} :
    Respects L.Nearing (KeepRule.wildcard rule access fields methods) fun _ => L.Along :=
  Respects.liftModifier.bind fun _ => Respects.liftModifier.bind fun _ =>
    L.expectSeparator.bind fun _ => .pure fun _ _ h => h

theorem method {rule : KeepRule} {access : Access} {type name : String} :
    Respects L.Nearing (KeepRule.method rule access type name) fun _ => L.Along :=
  Respects.liftModifier.bind fun _ => L.argumentLoop.bind fun _ => L.expectSeparator.bind fun _ =>
    .pure fun _ _ h => h

theorem member {className : String} {rule : KeepRule} {access : Access} {word : String} :
    Respects (L.At word) (KeepRule.member className rule access word) fun _ => L.Along := by
  have hwild : ∀ {fields methods}, word ∉ ["\x7b", ";"] → Respects (L.At word)
      (KeepRule.wildcard rule access fields methods) fun _ => L.Along := fun hw =>
    L.wildcard.imp (fun c c' h => h.nearing (L.word_ne hw)) fun _ _ _ h => h
  refine .ite (fun hw => hwild (hw ▸ by decide)) fun _ =>
    .ite (fun hw => hwild (hw ▸ by decide)) fun _ =>
    .ite (fun hw => hwild (hw ▸ by decide)) fun _ => ?_
  refine L.checkPattern.bind fun _ => L.readWord.bind fun name =>
    .ite (fun hn => .ite (fun _ => ?_) fun _ => .reject) fun _ => ?_
  · exact L.method.imp (fun c c' h => h.nearing (hn ▸ L.word_ne (by decide))) fun _ _ _ h => h
  · refine L.checkPattern.bind fun _ => L.readWord.bind fun mark =>
      .ite (fun _ => ?_) fun _ => .ite (fun hm => ?_) fun _ => .reject
    · exact Respects.liftModifier.bind fun _ => .pure fun c c' h => ⟨mark, h⟩
    · exact L.method.imp (fun c c' h => h.nearing (hm ▸ L.word_ne (by decide))) fun _ _ _ h => h

theorem memberRound {className : String} {rule : KeepRule} :
    Respects L.Nearing (KeepRule.memberRound className rule)
      (Leaves L.Along fun _ => L.Nearing) := by
  refine L.modifierLoop.bind fun head => ?_
  cases head with
  | none => exact .pure fun _ _ h => h
  | some head => exact L.member.bind fun _ => .pure fun _ _ h => h

/-- The readings of the members agree, or members are read from the landmark on. -/
theorem members {className : String} {rule : KeepRule} {c c' : Cursor} (h : L.Along c c') :
    Agree (fun _ => L.Along) (KeepRule.members className rule c)
        (KeepRule.members className rule c') ∨
      ∃ rule₁, KeepRule.members className rule c = KeepRule.members className rule₁ L.here ∧
        KeepRule.members className rule c' = KeepRule.members className rule₁ L.there := by
  obtain ⟨w, hw⟩ := h
  rcases hw.place with hn | ⟨-, rfl, rfl⟩
  · have hrounds : ∀ rule, Respects L.Nearing ((KeepRule.memberLoop className).round rule)
        (Leaves (fun c c' => L.Nearing c c' ∨ L.Reached c c') fun _ => L.Nearing) := by
      intro rule
      refine L.memberRound.imp (fun _ _ h => h) fun round c c' h => ?_
      cases round with
      | again rule' =>
        obtain ⟨v, hv⟩ := h
        exact hv.place.imp_right And.right
      | done rule' => exact h
    rcases Respects.loop_until hrounds rule hn with ha | ⟨rule₁, h₁, h₁'⟩
    · refine .inl (ha.bind (fun _ _ _ _ he => .error he) fun rule c₁ c₁' h₁ => ?_)
      exact L.advance.bind (f := fun _ => pure rule) (fun _ => .pure fun _ _ h => h) c₁ c₁' h₁
    · refine .inr ⟨rule₁, ?_, ?_⟩
      · rw [KeepRule.members, bind_apply, h₁, KeepRule.members, bind_apply]
      · rw [KeepRule.members, bind_apply, h₁', KeepRule.members, bind_apply]
  · exact .inr ⟨rule, rfl, rfl⟩

/-! ### Rules -/

/-- The results agree, or both are those of reading members from the landmark on. -/
def Settles (r r' : EStateM.Result ParseError Cursor KeepRule) : Prop :=
  Agree (fun _ => L.Along) r r' ∨
    ∃ className rule, r = KeepRule.members className rule L.here ∧
      r' = KeepRule.members className rule L.there

variable {L} in
theorem Settles.error {e e' : ParseError} {c c' : Cursor} (he : e.cause = e'.cause) :
    L.Settles (.error e c) (.error e' c') := .inl (.error he)

theorem block {className : String} {rule : KeepRule} {c c' : Cursor} (h : L.Along c c') :
    L.Settles (KeepRule.block className rule c) (KeepRule.block className rule c') := by
  obtain ⟨w, hw⟩ := h
  rw [KeepRule.block_of_word hw.word hw.notStart, KeepRule.block_of_word hw.word' hw.notStart]
  split
  · rcases L.members ⟨w, hw⟩ with ha | ⟨rule₁, h₁, h₁'⟩
    · exact .inl ha
    · exact .inr ⟨className, rule₁, h₁, h₁'⟩
  · exact .error rfl

/-- **The readings of a rule agree up to the landmark**, or from there on both read members. -/
theorem parser {intent : KeepIntent} {comments : Option String} {c c' : Cursor}
    (h : L.Nearing c c') :
    L.Settles (KeepRule.parser intent comments c) (KeepRule.parser intent comments c') := by
  refine (L.classLoop c c' h).bind (fun _ _ _ _ he => .error he) fun access c c' h => ?_
  refine (L.readPattern c c' h).bind (fun _ _ _ _ he => .error he) fun name c c' h => ?_
  refine (L.advance c c' h).bind (fun _ _ _ _ he => .error he) fun _ c c' h => ?_
  refine (L.clause? (by decide) c c' h).bind (fun _ _ _ _ he => .error he) fun parent c c' h => ?_
  refine (L.clause? (by decide) c c' h).bind (fun _ _ _ _ he => .error he) fun newName c c' h => ?_
  exact L.block h

end Landmark

/-! ## The places of modifiers -/

/-- The words of a rule, from its keyword on, after which modifiers of the vocabulary can stand:
those of the class itself, or those of a member. -/
inductive ModifierPlace : List String → ModifierSet → Prop where
  | ofClass {marks : List Mark} : (∀ m ∈ marks, m.modifier ∈ KeepRule.classVocabulary) →
      ModifierPlace (marks.map Mark.word) KeepRule.classVocabulary
  | ofMember {ws : List String} {mark : String} {marks : List Mark} :
      (∀ w ∈ ws, Directive.starts w = false) → mark ∈ ["\x7b", ";"] →
      (∀ m ∈ marks, m.modifier ∈ ModifierSet.forMember) →
      ModifierPlace (ws ++ mark :: marks.map Mark.word) .forMember

/-- Rules that begin with the same words are read alike, or both are read from some place on by
collecting the modifiers there. -/
theorem KeepRule.parser_of_place {ws : List String} {vocabulary : ModifierSet}
    (hplace : ModifierPlace ws vocabulary) {intent : KeepIntent} {comments : Option String}
    {c c' h h' : Cursor} (hr : c.Reads ws h) (hr' : c'.Reads ws h') :
    Agree (fun _ => Cursor.Astray) (parser intent comments c) (parser intent comments c') ∨
      ∃ (q : Access → Parser KeepRule) (marks : List Mark) (b b' : Cursor),
        Collects vocabulary q ∧ (∀ m ∈ marks, m.modifier ∈ vocabulary) ∧
        b.Reads (marks.map Mark.word) h ∧ b'.Reads (marks.map Mark.word) h' ∧
        parser intent comments c = q {} b ∧ parser intent comments c' = q {} b' := by
  cases hplace with
  | @ofClass marks hm =>
    rw [parser_eq_headFrom]
    exact .inr ⟨_, marks, c, c', collects_headFrom intent comments, hm, hr, hr', rfl, rfl⟩
  | @ofMember ws mark marks hws hmark hm =>
    rw [List.append_cons] at hr hr'
    obtain ⟨here, hhere, hr⟩ := hr.of_append
    obtain ⟨there, hthere, hr'⟩ := hr'.of_append
    rcases Landmark.parser ⟨mark, hmark, here, there⟩ ⟨ws, hws, hhere, hthere⟩ with
      ha | ⟨className, rule, h₁, h₁'⟩
    · exact .inl (ha.imp fun _ _ _ hp => hp.astray)
    · rw [members_eq_membersFrom] at h₁ h₁'
      exact .inr ⟨_, marks, here, there, collects_membersFrom className rule, hm, hr, hr', h₁, h₁'⟩

end KeepRules
