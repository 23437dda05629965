import KeepRules.Configuration.Parser
import KeepRules.Proofs.Reading

/-! # Two readings side by side

A parser is run at two cursors that show it the same words. `Respects P p Q` says that the results
then agree: the values are the same and the cursors are related again, or both runs fail for the
same cause, though perhaps at different places.

* `Fresh`: a parser that reads on before it looks at anything.
* `Pairing`: two cursors that read the same words `Within` a stretch, and that both stand at the
  end of a directive `Beyond` it. What parsers may ask there is only whether the directive is over.
* `Pairing.classPath`, `Pairing.keepRule`, `Pairing.attributes`, `Pairing.argument`: the parsers of
  directives, each put together from its parts, respect every pairing. -/

set_option autoImplicit false

namespace KeepRules

/-- What an error says, apart from the place of a rejected word. -/
inductive Cause where
  | rejected (reason : Reason)
  | unreadable (origin : Origin) (fault : IoFault)
  deriving DecidableEq

def ParseError.cause : ParseError → Cause
  | rejected reason _ => .rejected reason
  | unreadable origin fault => .unreadable origin fault

namespace Parser

variable {α β : Type}

/-- Both results are successes with the same value at related cursors, or failures for the same
cause. -/
inductive Agree (Q : α → Cursor → Cursor → Prop) :
    EStateM.Result ParseError Cursor α → EStateM.Result ParseError Cursor α → Prop where
  | ok {a : α} {c c' : Cursor} : Q a c c' → Agree Q (.ok a c) (.ok a c')
  | error {e e' : ParseError} {c c' : Cursor} :
      e.cause = e'.cause → Agree Q (.error e c) (.error e' c')

/-- The parser gives results that agree when it starts at related cursors. -/
def Respects (P : Cursor → Cursor → Prop) (p : Parser α) (Q : α → Cursor → Cursor → Prop) : Prop :=
  ∀ c c', P c c' → Agree Q (p c) (p c')

section
variable {P P' : Cursor → Cursor → Prop} {Q Q' : α → Cursor → Cursor → Prop}

theorem Agree.imp {r r' : EStateM.Result ParseError Cursor α} (h : Agree Q r r')
    (hq : ∀ a c c', Q a c c' → Q' a c c') : Agree Q' r r' := by
  cases h with
  | ok h => exact .ok (hq _ _ _ h)
  | error he => exact .error he

theorem Agree.of_ok {a : α} {c : Cursor} {r : EStateM.Result ParseError Cursor α}
    (h : Agree Q (.ok a c) r) : ∃ c', r = .ok a c' ∧ Q a c c' := by
  cases h with
  | ok h => exact ⟨_, rfl, h⟩

theorem Agree.of_error {e : ParseError} {c : Cursor} {r : EStateM.Result ParseError Cursor α}
    (h : Agree Q (.error e c) r) : ∃ e' c', r = .error e' c' ∧ e.cause = e'.cause := by
  cases h with
  | error he => exact ⟨_, _, rfl, he⟩

namespace Respects

theorem imp {p : Parser α} (h : Respects P p Q) (hp : ∀ c c', P' c c' → P c c')
    (hq : ∀ a c c', Q a c c' → Q' a c c') : Respects P' p Q' :=
  fun c c' hc => (h c c' (hp c c' hc)).imp hq

theorem pure {a : α} (h : ∀ c c', P c c' → Q a c c') : Respects P (Pure.pure a) Q :=
  fun c c' hc => .ok (h c c' hc)

theorem bind {p : Parser α} {f : α → Parser β} {R : β → Cursor → Cursor → Prop}
    (hp : Respects P p Q) (hf : ∀ a, Respects (Q a) (f a) R) : Respects P (p >>= f) R := by
  intro c c' hc
  have h := hp c c' hc
  show Agree R (EStateM.bind p f c) (EStateM.bind p f c')
  unfold EStateM.bind
  cases hr : p c with
  | ok a c₁ =>
    rw [hr] at h
    obtain ⟨c₁', hr', hq⟩ := h.of_ok
    rw [hr']
    exact hf a c₁ c₁' hq
  | error e c₁ =>
    rw [hr] at h
    obtain ⟨e', c₁', hr', he⟩ := h.of_error
    rw [hr']
    exact .error he

/-- A choice that both runs make in the same way. -/
theorem ite {b : Prop} [Decidable b] {p p' : Parser α} (h : b → Respects P p Q)
    (h' : ¬ b → Respects P p' Q) : Respects P (if b then p else p') Q := by
  split
  · next hb => exact h hb
  · next hb => exact h' hb

theorem reject {reason : Reason} : Respects P (Parser.reject reason) Q :=
  fun _ _ _ => .error rfl

theorem checkPattern {word : String} {what : Expected} :
    Respects P (Parser.checkPattern word what) fun _ => P :=
  ite (fun _ => pure fun _ _ hc => hc) fun _ => reject

theorem getOrReject {o : Option α} {reason : Reason} :
    Respects P (Parser.getOrReject o reason) fun _ => P := by
  cases o with
  | some a => exact pure fun _ _ hc => hc
  | none => exact reject

theorem liftModifier {r : Except ModifierError α} :
    Respects P (Parser.liftModifier r) fun _ => P := by
  cases r with
  | ok a => exact pure fun _ _ hc => hc
  | error e => exact reject

theorem liftError {r : Except ParseError α} : Respects P (Parser.liftError r) fun _ => P := by
  cases r with
  | ok a => exact fun _ _ hc => .ok hc
  | error e => exact fun _ _ _ => .error rfl

theorem substitute {ctx : Context} {word : String} :
    Respects P (Parser.substitute ctx word) fun _ => P := by
  unfold Parser.substitute
  split
  · exact pure fun _ _ hc => hc
  · exact reject

end Respects

/-- What a round of a loop has to leave behind, by what it comes to. -/
def Leaves (P : Cursor → Cursor → Prop) (Q : β → Cursor → Cursor → Prop) :
    Round α β → Cursor → Cursor → Prop
  | .again _ => P
  | .done b => Q b

theorem Respects.loop {l : Loop α β} {Q : β → Cursor → Cursor → Prop}
    (h : ∀ a, Respects P (l.round a) (Leaves P Q)) (a : α) : Respects P (l.run a) Q := by
  intro c c' hc
  show Agree Q (l.runFrom a c) (l.run a c')
  -- the rounds of the first run, each with its counterpart in the second
  fun_induction Loop.runFrom l a c generalizing c' with
  | case1 a c e c₁ hr =>
    obtain ⟨e', c₁', hr', he⟩ := (hr ▸ h a c c' hc).of_error
    rw [Loop.run_apply, hr']
    exact .error he
  | case2 a c b c₁ hr =>
    obtain ⟨c₁', hr', hq⟩ := (hr ▸ h a c c' hc).of_ok
    rw [Loop.run_apply, hr']
    exact .ok hq
  | case3 a c a' c₁ hr ih =>
    obtain ⟨c₁', hr', hp⟩ := (hr ▸ h a c c' hc).of_ok
    rw [Loop.run_apply, hr']
    exact ih c₁' hp

end

/-! ## Parsers that read on first -/

theorem Agree.refl (r : EStateM.Result ParseError Cursor α) : Agree (fun _ => Eq) r r := by
  cases r with
  | ok a c => exact .ok rfl
  | error e c => exact .error rfl

/-- The parser does not look at the lookahead that it starts with. -/
def Fresh (p : Parser α) : Prop := Respects (fun c c' => c'.reader = c.reader) p fun _ => Eq

namespace Fresh

theorem advance : Fresh Parser.advance := by
  intro c c' h
  unfold Parser.advance
  rw [h]
  cases c.reader.next with
  | ok word r => exact .ok rfl
  | error e r => exact .error rfl

theorem bind {p : Parser α} (h : Fresh p) (f : α → Parser β) : Fresh (p >>= f) :=
  Respects.bind h fun a c _ hc => hc ▸ Agree.refl (f a c)

theorem readWord {what : Expected} : Fresh (Parser.readWord what) := advance.bind _

/-- Only the first round of a loop starts with the lookahead. -/
theorem loop {l : Loop α β} (h : ∀ a, Fresh (l.round a)) (a : α) : Fresh (l.run a) := by
  intro c c' hc
  rw [Loop.run_apply, Loop.run_apply]
  cases hr : l.round a c with
  | error e c₁ =>
    obtain ⟨e', c₁', hr', he⟩ := (hr ▸ h a c c' hc).of_error
    rw [hr']
    exact .error he
  | ok round c₁ =>
    obtain ⟨c₁', hr', rfl⟩ := (hr ▸ h a c c' hc).of_ok
    rw [hr']
    cases round with
    | done b => exact .ok rfl
    | again a' => exact Agree.refl _

end Fresh

end Parser

open KeepRules.Parser

/-- Cursors of two readings that run through the same words, and then each stand at the end of a
directive. -/
structure Pairing where
  Within : Cursor → Cursor → Prop
  Beyond : Cursor → Cursor → Prop
  reading : ∀ {c c' : Cursor}, Within c c' → ∃ w, c.word = some w ∧ c'.word = some w
  separator : ∀ {c c' : Cursor}, Within c c' → c'.reader.separator = c.reader.separator
  ended : ∀ {c c' : Cursor}, Beyond c c' → c.atEnd = true ∧ c'.atEnd = true
  reads : Respects Within advance fun _ c c' => Within c c' ∨ Beyond c c'

namespace Pairing

variable (S : Pairing)

/-- The cursors are paired, within the stretch or beyond it. -/
def Paired (c c' : Cursor) : Prop := S.Within c c' ∨ S.Beyond c c'

theorem word {c c' : Cursor} (h : S.Within c c') : c'.word = c.word := by
  obtain ⟨w, hw, hw'⟩ := S.reading h
  rw [hw, hw']

theorem advance : Respects S.Within Parser.advance fun _ => S.Paired := S.reads

theorem current : Respects S.Within Parser.current fun _ => S.Within := by
  intro c c' hc
  unfold Parser.current
  rw [S.word hc]
  exact .ok hc

theorem atEnd :
    Respects S.Paired Parser.atEnd fun b c c' => S.Paired c c' ∧ (b = false → S.Within c c') := by
  intro c c' hc
  unfold Parser.atEnd
  rcases hc with hc | hc
  · have hend : c'.atEnd = c.atEnd := by rw [Cursor.atEnd, Cursor.atEnd, S.word hc]
    rw [hend]
    exact .ok ⟨.inl hc, fun _ => hc⟩
  · rw [(S.ended hc).1, (S.ended hc).2]
    exact .ok ⟨.inr hc, fun h => absurd h (by decide)⟩

theorem isAt {literal : String} : Respects S.Within (Parser.isAt literal) fun _ => S.Within := by
  intro c c' hc
  unfold Parser.isAt Cursor.is
  rw [S.word hc]
  exact .ok hc

/-- At the end of a directive there is no word that does not start one. -/
theorem is_of_atEnd {c : Cursor} {literal : String} (hc : c.atEnd = true)
    (hl : Directive.starts literal = false) : c.is literal = false := by
  unfold Cursor.atEnd at hc
  unfold Cursor.is
  cases hw : c.word with
  | none => rfl
  | some w =>
    rw [hw, Option.all_some] at hc
    rw [beq_eq_false_iff_ne]
    rintro h
    cases h
    rw [hl] at hc
    cases hc

theorem isAt_paired {literal : String} (hl : Directive.starts literal = false) :
    Respects S.Paired (Parser.isAt literal)
      fun b c c' => S.Paired c c' ∧ (b = true → S.Within c c') := by
  intro c c' hc
  rcases hc with hc | hc
  · exact (S.isAt c c' hc).imp fun _ _ _ h => ⟨.inl h, fun _ => h⟩
  · unfold Parser.isAt
    rw [is_of_atEnd (S.ended hc).1 hl, is_of_atEnd (S.ended hc).2 hl]
    exact .ok ⟨.inr hc, fun h => absurd h (by decide)⟩

theorem readWord {what : Expected} :
    Respects S.Within (Parser.readWord what) fun _ => S.Within := by
  refine S.advance.bind fun _ => S.atEnd.bind fun b => .ite (fun _ => .reject) fun hb => ?_
  exact S.current.imp (fun c c' hc => hc.2 (by simpa using hb)) fun _ _ _ h => h

theorem readPattern {what : Expected} :
    Respects S.Within (Parser.readPattern what) fun _ => S.Within :=
  S.readWord.bind fun _ => Respects.checkPattern.bind fun _ => .pure fun _ _ h => h

/-! ## Class paths -/

theorem filterLoop {ctx : Context} {filters : List String} :
    Respects S.Within ((ClassPath.filterLoop ctx).run filters) fun _ => S.Within := by
  refine .loop (fun filters => ?_) filters
  refine S.readWord.bind fun _ => Respects.substitute.bind fun _ => S.readWord.bind fun _ =>
    .pure fun c c' h => ?_
  split
  · exact h
  · exact h

theorem filter? {ctx : Context} :
    Respects S.Paired (ClassPath.filter? ctx) fun _ => S.Paired := by
  refine (S.isAt_paired (by decide)).bind fun b => .ite (fun hb => ?_) fun _ => ?_
  · refine (S.filterLoop.imp (fun c c' h => h.2 hb) fun _ _ _ h => h).bind fun _ =>
      S.advance.bind fun _ => .pure fun _ _ h => h
  · exact .pure fun _ _ h => h.1

theorem entryRound {ctx : Context} {separator : Char} {path : ClassPath} :
    Respects S.Within (ClassPath.entryRound ctx separator path)
      (Leaves S.Within fun _ => S.Paired) := by
  refine S.readWord.bind fun _ => Respects.substitute.bind fun _ => S.advance.bind fun _ =>
    S.filter?.bind fun _ => S.atEnd.bind fun b => .ite (fun _ => ?_) fun hb => ?_
  · exact .pure fun _ _ h => h.1
  · have hb : b = false := by simpa using hb
    refine (S.isAt.imp (fun c c' h => h.2 hb) fun _ _ _ h => h).bind fun _ =>
      .ite (fun _ => ?_) fun _ => .reject
    exact .pure fun _ _ h => h

theorem classPath {ctx : Context} {path : ClassPath} :
    Respects S.Within (ClassPath.parser ctx path) fun _ => S.Paired := by
  intro c c' hc
  unfold ClassPath.parser
  rw [S.separator hc]
  exact Respects.loop (fun path => S.entryRound) path c c' hc

/-! ## Keep rules -/

theorem classLoop {access : Access} :
    Respects S.Within (KeepRule.classLoop.run access) fun _ => S.Within := by
  refine .loop (fun access => ?_) access
  refine S.readWord.bind fun _ => .ite (fun _ => .pure fun _ _ h => h) fun _ => ?_
  refine Respects.getOrReject.bind fun _ => Respects.liftModifier.bind fun _ =>
    .pure fun c c' h => ?_
  split
  · exact h
  · exact h

theorem modifierLoop {access : Access} :
    Respects S.Within (KeepRule.modifierLoop.run access) fun _ => S.Within := by
  refine .loop (fun access => ?_) access
  refine S.readWord.bind fun word => .ite (fun _ => .pure fun _ _ h => h) fun _ => ?_
  cases Modifier.ofMemberKeyword? (Word.stripNegator word).1 with
  | none => exact .pure fun _ _ h => h
  | some m => exact Respects.liftModifier.bind fun _ => .pure fun _ _ h => h

theorem argumentLoop {arguments : List String} :
    Respects S.Within (KeepRule.argumentLoop.run arguments) fun _ => S.Within := by
  refine .loop (fun arguments => ?_) arguments
  refine S.readWord.bind fun _ => .ite (fun _ => .pure fun _ _ h => h) fun _ => ?_
  refine Respects.checkPattern.bind fun _ => S.readWord.bind fun _ =>
    .ite (fun _ => .pure fun _ _ h => h) fun _ => ?_
  exact .ite (fun _ => .pure fun _ _ h => h) fun _ => .reject

theorem expectSeparator : Respects S.Within KeepRule.expectSeparator fun _ => S.Within :=
  S.readWord.bind fun _ => .ite (fun _ => .pure fun _ _ h => h) fun _ => .reject

theorem wildcard {rule : KeepRule} {access : Access} {fields methods : Bool} :
    Respects S.Within (KeepRule.wildcard rule access fields methods) fun _ => S.Within :=
  Respects.liftModifier.bind fun _ => Respects.liftModifier.bind fun _ =>
    S.expectSeparator.bind fun _ => .pure fun _ _ h => h

theorem field {rule : KeepRule} {access : Access} {type name : String} :
    Respects S.Within (KeepRule.field rule access type name) fun _ => S.Within :=
  Respects.liftModifier.bind fun _ => .pure fun _ _ h => h

theorem method {rule : KeepRule} {access : Access} {type name : String} :
    Respects S.Within (KeepRule.method rule access type name) fun _ => S.Within :=
  Respects.liftModifier.bind fun _ => S.argumentLoop.bind fun _ => S.expectSeparator.bind fun _ =>
    .pure fun _ _ h => h

theorem member {className : String} {rule : KeepRule} {access : Access} {word : String} :
    Respects S.Within (KeepRule.member className rule access word) fun _ => S.Within := by
  refine .ite (fun _ => S.wildcard) fun _ => .ite (fun _ => S.wildcard) fun _ =>
    .ite (fun _ => S.wildcard) fun _ => ?_
  refine Respects.checkPattern.bind fun _ => S.readWord.bind fun _ => .ite (fun _ => ?_) fun _ => ?_
  · exact .ite (fun _ => S.method) fun _ => .reject
  · refine Respects.checkPattern.bind fun _ => S.readWord.bind fun _ => ?_
    exact .ite (fun _ => S.field) fun _ => .ite (fun _ => S.method) fun _ => .reject

theorem memberLoop {className : String} {rule : KeepRule} :
    Respects S.Within ((KeepRule.memberLoop className).run rule) fun _ => S.Within := by
  refine .loop (fun rule => S.modifierLoop.bind fun head => ?_) rule
  cases head with
  | none => exact .pure fun _ _ h => h
  | some head => exact S.member.bind fun _ => .pure fun _ _ h => h

theorem clause? {keywords : List String} {what : Expected}
    (hk : ∀ k ∈ keywords, Directive.starts k = false) :
    Respects S.Paired (KeepRule.clause? keywords what) fun _ => S.Paired := by
  intro c c' hc
  unfold KeepRule.clause?
  rcases hc with hc | hc
  · have hany : keywords.any c'.is = keywords.any c.is := by
      unfold Cursor.is
      rw [S.word hc]
    rw [hany]
    have hname : Respects S.Within (do
        let name ← Parser.readPattern what
        Parser.advance
        return some (ClassName.toInternal name)) fun _ => S.Paired :=
      S.readPattern.bind fun _ => S.advance.bind fun _ => .pure fun _ _ h => h
    split
    · exact hname c c' hc
    · exact .ok (.inl hc)
  · have hnone : ∀ d : Cursor, d.atEnd = true → keywords.any d.is = false := by
      intro d hd
      rw [List.any_eq_false]
      exact fun k hm => by simp [is_of_atEnd hd (hk k hm)]
    rw [hnone c (S.ended hc).1, hnone c' (S.ended hc).2]
    exact .ok (.inr hc)

theorem block {className : String} {rule : KeepRule} :
    Respects S.Paired (KeepRule.block className rule) fun _ => S.Paired := by
  refine S.atEnd.bind fun b => .ite (fun _ => .pure fun _ _ h => h.1) fun hb => ?_
  have hb : b = false := by simpa using hb
  refine (S.isAt.imp (fun c c' h => h.2 hb) fun _ _ _ h => h).bind fun _ =>
    .ite (fun _ => ?_) fun _ => .reject
  exact S.memberLoop.bind fun _ => S.advance.bind fun _ => .pure fun _ _ h => h

theorem keepRule {intent : KeepIntent} {comments : Option String} :
    Respects S.Within (KeepRule.parser intent comments) fun _ => S.Paired := by
  refine S.classLoop.bind fun _ => S.readPattern.bind fun _ => S.advance.bind fun _ => ?_
  exact (S.clause? (by decide)).bind fun _ => (S.clause? (by decide)).bind fun _ => S.block

/-! ## Attributes and single arguments -/

theorem attributeRound {names : List String} :
    Respects S.Within (Parser.attributeRound names) (Leaves S.Within fun _ => S.Paired) := by
  refine S.current.bind fun _ => S.advance.bind fun _ => S.atEnd.bind fun b =>
    .ite (fun _ => .pure fun _ _ h => h.1) fun hb => ?_
  have hb : b = false := by simpa using hb
  refine (S.isAt.imp (fun c c' h => h.2 hb) fun _ _ _ h => h).bind fun _ =>
    .ite (fun _ => ?_) fun _ => .reject
  exact S.readWord.bind fun _ => .pure fun _ _ h => h

theorem attributes {names : List String} :
    Respects S.Within (Parser.attributes names) fun _ => S.Paired := by
  refine S.advance.bind fun _ => S.atEnd.bind fun b =>
    .ite (fun _ => .pure fun _ _ h => h.1) fun hb => ?_
  have hb : b = false := by simpa using hb
  refine (S.isAt.imp (fun c c' h => h.2 hb) fun _ _ _ h => h).bind fun _ =>
    .ite (fun _ => ?_) fun _ => ?_
  · exact S.advance.bind fun _ => .pure fun _ _ h => h
  · exact Respects.loop (fun _ => S.attributeRound) names

theorem argument : Respects S.Within Parser.argument fun _ => S.Paired := by
  refine S.advance.bind fun _ => S.atEnd.bind fun b =>
    .ite (fun _ => .pure fun _ _ h => h.1) fun hb => ?_
  have hb : b = false := by simpa using hb
  exact (S.current.imp (fun c c' h => h.2 hb) fun _ _ _ h => h).bind fun _ =>
    S.advance.bind fun _ => .pure fun _ _ h => h

end Pairing

end KeepRules
