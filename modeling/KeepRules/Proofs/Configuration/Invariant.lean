import KeepRules.Proofs.Configuration.Effects
import KeepRules.Proofs.Stack

/-! # What holds throughout a run

A parser changes its cursor in few ways: it reads the next word, it goes on in an included file, and
at the start of a directive it takes the comments and records the keyword. It fails in few ways too:
it rejects the lookahead where it stands, or something cannot be opened or read.

* `Keeps P F p`: the parser keeps `P`, and where it fails, `F` holds of the error and the cursor.
  There is one rule for each way to put parsers together.
* `Invariant`: what has to be shown of a property of cursors, one field for each of these ways.
* `Invariant.apply`, `Invariant.step`: then all directives keep it.
* `Invariant.fails_of_run`: a run that fails ends in one of these ways; `Invariant.holds_of_run`:
  one that succeeds keeps the property to its end. -/

set_option autoImplicit false

namespace KeepRules

namespace Parser

variable {α β : Type}

/-- `P` holds of the cursor where a parser has succeeded, or `F` of the error with which it has
failed and of the cursor then. -/
def Ends (P : Cursor → Prop) (F : ParseError → Cursor → Prop) :
    EStateM.Result ParseError Cursor α → Prop
  | .ok _ c => P c
  | .error e c => F e c

/-- The parser keeps `P`, and where it fails, `F` holds. -/
def Keeps (P : Cursor → Prop) (F : ParseError → Cursor → Prop) (p : Parser α) : Prop :=
  ∀ c, P c → Ends P F (p c)

namespace Keeps

variable {P : Cursor → Prop} {F : ParseError → Cursor → Prop}

theorem pure (a : α) : Keeps P F (Pure.pure a : Parser α) := fun _ hc => hc

theorem bind {p : Parser α} {f : α → Parser β} (hp : Keeps P F p) (hf : ∀ a, Keeps P F (f a)) :
    Keeps P F (p >>= f) := by
  intro c hc
  have h := hp c hc
  show Ends P F (EStateM.bind p f c)
  unfold EStateM.bind
  cases hr : p c with
  | ok a c₁ =>
    rw [hr] at h
    exact hf a c₁ h
  | error e c₁ =>
    rw [hr] at h
    exact h

theorem ite {b : Prop} [Decidable b] {p p' : Parser α} (h : Keeps P F p) (h' : Keeps P F p') :
    Keeps P F (if b then p else p') := by
  split
  · exact h
  · exact h'

theorem current : Keeps P F Parser.current := fun _ hc => hc

theorem atEnd : Keeps P F Parser.atEnd := fun _ hc => hc

theorem isAt (literal : String) : Keeps P F (Parser.isAt literal) := fun _ hc => hc

/-- What every round keeps, the loop keeps. -/
theorem loop {l : Loop α β} (h : ∀ a, Keeps P F (l.round a)) (a : α) : Keeps P F (l.run a) := by
  intro c hc
  show Ends P F (l.runFrom a c)
  fun_induction Loop.runFrom l a c with
  | case1 a c e c₁ hr =>
    have hend := h a c hc
    rw [hr] at hend
    exact hend
  | case2 a c b c₁ hr =>
    have hend := h a c hc
    rw [hr] at hend
    exact hend
  | case3 a c a' c₁ hr ih =>
    have hend := h a c hc
    rw [hr] at hend
    exact ih hend

end Keeps

end Parser

open KeepRules.Parser

theorem Parser.enter_eq_error {source : Source} {c c' : Cursor} {e : ParseError}
    (h : enter source c = .error e c') :
    e = .rejected (.nestedTooDeep c.reader.limit) c.reader.location ∧ c' = c := by
  unfold enter Reader.includeSource at h
  by_cases hd : c.reader.depth < c.reader.limit
  · rw [if_pos hd] at h
    cases h
  · rw [if_neg hd] at h
    cases h
    exact ⟨rfl, rfl⟩

/-- A read fails only where a source cannot be read. -/
theorem Parser.ends_advance {P : Cursor → Prop} {F : ParseError → Cursor → Prop} {c : Cursor}
    (hok : ∀ {c'}, advance c = .ok () c' → P c')
    (hfail : ∀ {origin fault c'}, advance c = .error (.unreadable origin fault) c' →
      F (.unreadable origin fault) c') : Ends P F (advance c) := by
  cases ha : advance c with
  | ok u c' => exact hok ha
  | error e c' =>
    obtain ⟨origin, fault, rfl⟩ : ∃ origin fault, e = .unreadable origin fault := by
      have hm := c.reader.moves_next
      unfold advance at ha
      generalize c.reader.next = result at ha hm
      cases hm with
      | gives => cases ha
      | ends => cases ha
      | fails =>
        cases ha
        exact ⟨_, _, rfl⟩
    exact hfail ha

/-- A property of cursors that whatever a parser does keeps, with what is known where it fails. -/
structure Invariant (ctx : Context) where
  Holds : Cursor → Prop
  Fails : ParseError → Cursor → Prop
  rejects : ∀ {c : Cursor} (reason : Reason), Holds c → Fails (.rejected reason c.reader.location) c
  /-- A file cannot be opened. -/
  unopened : ∀ {c : Cursor} (origin : Origin) (fault : IoFault), Holds c →
    Fails (.unreadable origin fault) c
  reads : Keeps Holds Fails advance
  includes : ∀ {c c₁ : Cursor} {name : String} {source : Source}, Holds c →
    Source.ofFile ctx.host name = .ok source → enter source c = .ok () c₁ →
    Ends Holds Fails (advance c₁)
  takes : ∀ {c : Cursor}, Holds c → Holds { c with reader := c.reader.takeComments.2 }
  records : ∀ {c : Cursor} (keyword word : String), Holds c →
    Holds { c with reader := c.reader.record (.dispatching keyword word) }

namespace Invariant

variable {α : Type} {ctx : Context} (S : Invariant ctx)

/-- The parser keeps the invariant. -/
def Kept (p : Parser α) : Prop := Keeps S.Holds S.Fails p

theorem reject {reason : Reason} : S.Kept (reject reason : Parser α) :=
  fun _ hc => S.rejects reason hc

theorem checkPattern {word : String} {what : Expected} : S.Kept (checkPattern word what) :=
  Keeps.ite (.pure ()) S.reject

theorem getOrReject {o : Option α} {reason : Reason} : S.Kept (getOrReject o reason) := by
  cases o with
  | some a => exact Keeps.pure a
  | none => exact S.reject

theorem liftModifier {r : Except ModifierError α} : S.Kept (liftModifier r) := by
  cases r with
  | ok a => exact Keeps.pure a
  | error e => exact S.reject

theorem substitute {ctx' : Context} {word : String} : S.Kept (substitute ctx' word) := by
  unfold Kept Parser.substitute
  split
  · exact Keeps.pure _
  · exact S.reject

theorem readWord {what : Expected} : S.Kept (readWord what) :=
  S.reads.bind fun _ => Keeps.atEnd.bind fun _ => .ite S.reject .current

theorem readPattern {what : Expected} : S.Kept (readPattern what) :=
  S.readWord.bind fun _ => S.checkPattern.bind fun _ => .pure _

/-! ## Class paths -/

theorem filterLoop {ctx' : Context} {filters : List String} :
    S.Kept ((ClassPath.filterLoop ctx').run filters) := by
  refine Keeps.loop (fun filters => ?_) filters
  exact S.readWord.bind fun _ => S.substitute.bind fun _ => S.readWord.bind fun _ => .pure _

theorem filter? {ctx' : Context} : S.Kept (ClassPath.filter? ctx') :=
  (Keeps.isAt _).bind fun _ =>
    .ite (S.filterLoop.bind fun _ => S.reads.bind fun _ => .pure _) (.pure _)

theorem entryLoop {ctx' : Context} {separator : Char} {path : ClassPath} :
    S.Kept ((ClassPath.entryLoop ctx' separator).run path) := by
  refine Keeps.loop (fun path => ?_) path
  exact S.readWord.bind fun _ => S.substitute.bind fun _ => S.reads.bind fun _ =>
    S.filter?.bind fun _ => Keeps.atEnd.bind fun _ => .ite (.pure _) <|
      (Keeps.isAt _).bind fun _ => .ite (.pure _) S.reject

theorem classPath {ctx' : Context} {path : ClassPath} : S.Kept (ClassPath.parser ctx' path) :=
  fun c hc => S.entryLoop c hc

/-! ## Keep rules -/

theorem classLoop {access : Access} : S.Kept (KeepRule.classLoop.run access) := by
  refine Keeps.loop (fun access => S.readWord.bind fun _ => .ite (.pure _) ?_) access
  exact S.getOrReject.bind fun _ => S.liftModifier.bind fun _ => .pure _

theorem modifierLoop {access : Access} : S.Kept (KeepRule.modifierLoop.run access) := by
  refine Keeps.loop (fun access => S.readWord.bind fun word => .ite (.pure _) ?_) access
  cases Modifier.ofMemberKeyword? (Word.stripNegator word).1 with
  | none => exact .pure _
  | some m => exact S.liftModifier.bind fun _ => .pure _

theorem argumentLoop {arguments : List String} : S.Kept (KeepRule.argumentLoop.run arguments) := by
  refine Keeps.loop (fun arguments => S.readWord.bind fun _ => .ite (.pure _) ?_) arguments
  exact S.checkPattern.bind fun _ => S.readWord.bind fun _ =>
    .ite (.pure _) (.ite (.pure _) S.reject)

theorem expectSeparator : S.Kept KeepRule.expectSeparator :=
  S.readWord.bind fun _ => .ite (.pure _) S.reject

theorem wildcard {rule : KeepRule} {access : Access} {fields methods : Bool} :
    S.Kept (KeepRule.wildcard rule access fields methods) :=
  S.liftModifier.bind fun _ => S.liftModifier.bind fun _ => S.expectSeparator.bind fun _ => .pure _

theorem field {rule : KeepRule} {access : Access} {type name : String} :
    S.Kept (KeepRule.field rule access type name) :=
  S.liftModifier.bind fun _ => .pure _

theorem method {rule : KeepRule} {access : Access} {type name : String} :
    S.Kept (KeepRule.method rule access type name) :=
  S.liftModifier.bind fun _ => S.argumentLoop.bind fun _ => S.expectSeparator.bind fun _ => .pure _

theorem member {className : String} {rule : KeepRule} {access : Access} {word : String} :
    S.Kept (KeepRule.member className rule access word) := by
  refine Keeps.ite S.wildcard (.ite S.wildcard (.ite S.wildcard ?_))
  refine S.checkPattern.bind fun _ => S.readWord.bind fun _ => .ite (.ite S.method S.reject) ?_
  refine S.checkPattern.bind fun _ => S.readWord.bind fun _ => ?_
  exact .ite S.field (.ite S.method S.reject)

theorem memberLoop {className : String} {rule : KeepRule} :
    S.Kept ((KeepRule.memberLoop className).run rule) := by
  refine Keeps.loop (fun rule => S.modifierLoop.bind fun head => ?_) rule
  cases head with
  | none => exact .pure _
  | some head => exact S.member.bind fun _ => .pure _

theorem clause? {keywords : List String} {what : Expected} :
    S.Kept (KeepRule.clause? keywords what) := by
  intro c hc
  have hname : S.Kept (do
      let name ← Parser.readPattern what
      advance
      return some (ClassName.toInternal name)) :=
    S.readPattern.bind fun _ => S.reads.bind fun _ => .pure _
  unfold KeepRule.clause?
  split
  · exact hname c hc
  · exact hc

theorem block {className : String} {rule : KeepRule} : S.Kept (KeepRule.block className rule) :=
  Keeps.atEnd.bind fun _ => .ite (.pure _) <| (Keeps.isAt _).bind fun _ =>
    .ite (S.memberLoop.bind fun _ => S.reads.bind fun _ => .pure _) S.reject

theorem keepRule {intent : KeepIntent} {comments : Option String} :
    S.Kept (KeepRule.parser intent comments) :=
  S.classLoop.bind fun _ => S.readPattern.bind fun _ => S.reads.bind fun _ =>
    S.clause?.bind fun _ => S.clause?.bind fun _ => S.block

/-! ## Other directives -/

theorem attributeLoop {names : List String} : S.Kept (attributeLoop.run names) := by
  refine Keeps.loop (fun names => Keeps.current.bind fun _ => S.reads.bind fun _ => ?_) names
  exact Keeps.atEnd.bind fun _ => .ite (.pure _) <|
    (Keeps.isAt _).bind fun _ => .ite (S.readWord.bind fun _ => .pure _) S.reject

theorem attributes {names : List String} : S.Kept (attributes names) :=
  S.reads.bind fun _ => Keeps.atEnd.bind fun _ => .ite (.pure _) <|
    (Keeps.isAt _).bind fun _ => .ite (S.reads.bind fun _ => .pure _) S.attributeLoop

theorem argument : S.Kept argument :=
  S.reads.bind fun _ => Keeps.atEnd.bind fun _ => .ite (.pure _) <|
    Keeps.current.bind fun _ => S.reads.bind fun _ => .pure _

/-- The file is opened and put on top, and its first word is read. -/
theorem openFile {name : String} :
    S.Kept (do
      let source ← liftError (Source.ofFile ctx.host name)
      enter source
      advance) := by
  intro c hc
  cases hsource : Source.ofFile ctx.host name with
  | error e =>
    have he : ∃ fault, e = .unreadable (.file name) fault := by
      unfold Source.ofFile at hsource
      split at hsource
      · cases hsource
      · cases hsource
        exact ⟨_, rfl⟩
    obtain ⟨fault, rfl⟩ := he
    exact S.unopened _ fault hc
  | ok source =>
    show Ends S.Holds S.Fails (EStateM.bind (enter source) (fun _ => advance) c)
    unfold EStateM.bind
    cases he : enter source c with
    | ok u c₁ => exact S.includes hc hsource he
    | error e c₁ =>
      obtain ⟨rfl, rfl⟩ := enter_eq_error he
      exact S.rejects _ hc

theorem includeFile : S.Kept (includeFile ctx) :=
  S.readWord.bind fun _ => S.substitute.bind fun _ => S.openFile

end Invariant

/-! ## Runs -/

namespace Invariant

variable {ctx : Context} (S : Invariant ctx) {c : Cursor}

theorem settle {α : Type} {r : EStateM.Result ParseError Cursor α} {done : α → Configuration}
    {failed : Configuration} (h : Ends S.Holds S.Fails r) :
    Ends S.Holds S.Fails (Configuration.settle r done failed).2 := by
  cases r with
  | ok a c => exact h
  | error e c => exact h

theorem apply (h : S.Holds c) (comments : Option String) (config : Configuration) (d : Directive) :
    Ends S.Holds S.Fails (Configuration.apply ctx comments config d c).2 := by
  cases d with
  | includeFile => exact S.settle (S.includeFile c h)
  | classPath role => exact S.settle (S.classPath c h)
  | keep intent => exact S.settle (S.keepRule c h)
  | keepAttributes => exact S.settle (S.attributes c h)
  | text o => exact S.settle (S.argument c h)
  | switch s => exact S.settle (S.reads c h)

theorem step (h : S.Holds c) (config : Configuration) (word : String) :
    Ends S.Holds S.Fails (Configuration.step ctx config word c).2 := by
  cases hl : Directive.lookup? word with
  | none =>
    simp only [Configuration.step, hl]
    exact S.rejects .unknownDirective (S.takes h)
  | some p =>
    obtain ⟨keyword, d⟩ := p
    rw [Configuration.step_eq_of_lookup? hl]
    exact S.apply (S.records keyword word (S.takes h)) _ config d

theorem fails_of_run {config config' : Configuration} {e : ParseError} {c' : Cursor}
    (h : S.Holds c) (hrun : Configuration.run ctx config c = (config', .error e c')) :
    S.Fails e c' := by
  have hend : Ends (fun _ => True) S.Fails (Configuration.run ctx config c).2 := by
    refine Configuration.run_induction
      (P := fun _ c r => S.Holds c → Ends (fun _ => True) S.Fails r.2) ?_ ?_ ?_ config c h
    · intro config c c' _ _
      exact trivial
    · intro config c word config' e c' _ hs h
      have hstep := S.step h config word
      rw [hs] at hstep
      exact hstep
    · intro config c word config' c' r _ hs ih h
      have hstep := S.step h config word
      rw [hs] at hstep
      exact ih hstep
  rw [hrun] at hend
  exact hend

/-- A run that succeeds ends where there is no word any more, and this is recorded. -/
theorem holds_of_run {config config' : Configuration} {c' : Cursor} (h : S.Holds c)
    (hrun : Configuration.run ctx config c = (config', .ok () c')) :
    ∃ c₁, S.Holds c₁ ∧ c₁.word = none ∧
      c'.reader = c₁.reader.record (.parsed config'.keep.length (config'.inJars.getD []).length
        (config'.outJars.getD []).length) := by
  fun_induction Configuration.run ctx config c with
  | case1 config c hw =>
    cases hrun
    exact ⟨c, h, hw, rfl⟩
  | case2 => cases hrun
  | case3 config c word hw config₁ c₁ hs ih =>
    have hstep := S.step h config word
    rw [hs] at hstep
    exact ih hstep hrun

end Invariant

end KeepRules
