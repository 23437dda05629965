import KeepRules.Descriptor
import KeepRules.Parser
import KeepRules.Rule

/-! # Reading keep rules

`[!]modifier... class|interface name [extends|implements name] [as name] [{ member... }]`, after
the keyword of the rule. A member is a wildcard, a field or a method, with modifiers in front and
`;` at the end. -/

set_option autoImplicit false

namespace KeepRules.KeepRule

open KeepRules.Parser

/-! ## Modifiers -/

/-- One more class modifier. The keyword `class` ends them, and so does `interface`, which is a
modifier itself. -/
def classRound (access : Access) : Parser (Round Access Access) := do
  let word ← readWord .classKeyword
  if word = "class" then return .done access
  else
    let m ← getOrReject (Modifier.ofClassKeyword? (Word.stripNegator word).1) .unexpectedKeyword
    let access ← liftModifier (access.require (.singleton m) (Word.stripNegator word).2)
    return if m = .accInterface then .done access else .again access

/-- One more member modifier. The first other word ends them; nothing stands for the `}` that
closes the block, which counts as such only without modifiers in front. -/
def modifierRound (access : Access) : Parser (Round Access (Option (Access × String))) := do
  let word ← readWord .member
  if access.isEmpty && word == "\x7d" then return .done none
  else
    match Modifier.ofMemberKeyword? (Word.stripNegator word).1 with
    | none => return .done (some (access, word))
    | some m =>
      let access ← liftModifier (access.require (.singleton m) (Word.stripNegator word).2)
      return .again access

theorem before_of_classRound {access : Access} {c c' : Cursor} {r : Round Access Access}
    (h : classRound access c = .ok r c') : c'.reader.Before c.reader := by
  simp only [classRound, bind_eq_ok] at h
  obtain ⟨_, _, h₁, h⟩ := h
  split at h
  · obtain ⟨-, rfl⟩ := pure_eq_ok.1 h
    exact before_of_readWord h₁
  · simp only [bind_eq_ok, getOrReject_eq_ok, liftModifier_eq_ok, pure_eq_ok] at h
    obtain ⟨_, _, ⟨-, rfl⟩, _, _, ⟨-, rfl⟩, -, rfl⟩ := h
    exact before_of_readWord h₁

theorem before_of_modifierRound {access : Access} {c c' : Cursor}
    {r : Round Access (Option (Access × String))}
    (h : modifierRound access c = .ok r c') : c'.reader.Before c.reader := by
  simp only [modifierRound, bind_eq_ok] at h
  obtain ⟨word, _, h₁, h⟩ := h
  split at h
  · obtain ⟨-, rfl⟩ := pure_eq_ok.1 h
    exact before_of_readWord h₁
  · cases hm : Modifier.ofMemberKeyword? (Word.stripNegator word).1 with
    | none =>
      simp only [hm, pure_eq_ok] at h
      obtain ⟨-, rfl⟩ := h
      exact before_of_readWord h₁
    | some m =>
      simp only [hm, bind_eq_ok, liftModifier_eq_ok, pure_eq_ok] at h
      obtain ⟨_, _, ⟨-, rfl⟩, -, rfl⟩ := h
      exact before_of_readWord h₁

def classLoop : Loop Access Access where
  round := classRound
  reads := before_of_classRound

def modifierLoop : Loop Access (Option (Access × String)) where
  round := modifierRound
  reads := before_of_modifierRound

/-! ## Members -/

/-- One more argument type, or `)` right after `(`. -/
def argumentRound (arguments : List String) : Parser (Round (List String) (List String)) := do
  let word ← readWord .argument
  if arguments.isEmpty && word == ")" then return .done arguments
  else
    checkPattern word .argumentType
    let separator ← readWord .argumentSeparator
    if separator = "," then return .again (arguments ++ [word])
    else if separator = ")" then return .done (arguments ++ [word])
    else reject (.expected .argumentSeparator)

theorem before_of_argumentRound {arguments : List String} {c c' : Cursor}
    {r : Round (List String) (List String)}
    (h : argumentRound arguments c = .ok r c') : c'.reader.Before c.reader := by
  simp only [argumentRound, bind_eq_ok] at h
  obtain ⟨_, _, h₁, h⟩ := h
  split at h
  · obtain ⟨-, rfl⟩ := pure_eq_ok.1 h
    exact before_of_readWord h₁
  · simp only [bind_eq_ok, checkPattern_eq_ok] at h
    obtain ⟨_, _, ⟨-, rfl⟩, _, _, h₂, h⟩ := h
    have hb := (before_of_readWord h₂).trans (before_of_readWord h₁)
    split at h
    · obtain ⟨-, rfl⟩ := pure_eq_ok.1 h
      exact hb
    · split at h
      · obtain ⟨-, rfl⟩ := pure_eq_ok.1 h
        exact hb
      · exact (reject_ne_ok h).elim

def argumentLoop : Loop (List String) (List String) where
  round := argumentRound
  reads := before_of_argumentRound

def expectSeparator : Parser Unit := do
  let word ← readWord .separator
  if word = ";" then return () else reject (.expected .separator)

/-- Any field, any method, or any member at all. -/
def wildcard (rule : KeepRule) (access : Access) (fields methods : Bool) : Parser KeepRule := do
  liftModifier (if fields then access.checkField else .ok ())
  liftModifier (if methods then access.checkMethod else .ok ())
  expectSeparator
  let any : Member := { access := access }
  let rule := if fields then rule.addField any else rule
  return if methods then rule.addMethod any else rule

def field (rule : KeepRule) (access : Access) (type name : String) : Parser KeepRule := do
  liftModifier access.checkField
  return rule.addField
    { access := access, name := some name, descriptor := some (Descriptor.internalType type) }

/-- The arguments of a method, after `(`. -/
def method (rule : KeepRule) (access : Access) (type name : String) : Parser KeepRule := do
  liftModifier access.checkMethod
  let arguments ← argumentLoop.run []
  expectSeparator
  return rule.addMethod
    { access := access
      name := some name
      descriptor := some (Descriptor.internalMethod type arguments) }

/-- Whether a word before `(` stands for the constructors of the class. -/
def namesConstructor (className word : String) : Bool :=
  word == constructorName || word == className || word == ClassName.short className

/-- A member that starts with the given word, after its modifiers. -/
def member (className : String) (rule : KeepRule) (access : Access) (word : String) :
    Parser KeepRule := do
  if word = "*" then wildcard rule access true true
  else if word = "<fields>" then wildcard rule access true false
  else if word = "<methods>" then wildcard rule access false true
  else
    checkPattern word .memberType
    let name ← readWord .memberName
    if name = "(" then
      if namesConstructor className word then method rule access "void" constructorName
      else reject (.expectedTypeAndName word)
    else
      checkPattern name .memberName
      let mark ← readWord .memberEnd
      if mark = ";" then field rule access word name
      else if mark = "(" then method rule access word name
      else reject (.expected .memberEnd)

theorem before_of_expectSeparator {c c' : Cursor} {u : Unit}
    (h : expectSeparator c = .ok u c') : c'.reader.Before c.reader := by
  simp only [expectSeparator, bind_eq_ok] at h
  obtain ⟨_, _, h₁, h⟩ := h
  split at h
  · obtain ⟨-, rfl⟩ := pure_eq_ok.1 h
    exact before_of_readWord h₁
  · exact (reject_ne_ok h).elim

theorem before_of_wildcard {rule rule' : KeepRule} {access : Access} {fields methods : Bool}
    {c c' : Cursor} (h : wildcard rule access fields methods c = .ok rule' c') :
    c'.reader.Before c.reader := by
  simp only [wildcard, bind_eq_ok, liftModifier_eq_ok, pure_eq_ok] at h
  obtain ⟨_, _, ⟨-, rfl⟩, _, _, ⟨-, rfl⟩, _, _, h₁, -, rfl⟩ := h
  exact before_of_expectSeparator h₁

theorem before_of_method {rule rule' : KeepRule} {access : Access} {type name : String}
    {c c' : Cursor} (h : method rule access type name c = .ok rule' c') :
    c'.reader.Before c.reader := by
  simp only [method, bind_eq_ok, liftModifier_eq_ok, pure_eq_ok] at h
  obtain ⟨_, _, ⟨-, rfl⟩, _, _, h₁, _, _, h₂, -, rfl⟩ := h
  exact (before_of_expectSeparator h₂).trans (Loop.before_of_run before_of_argumentRound h₁)

theorem before_of_member {className : String} {rule rule' : KeepRule} {access : Access}
    {word : String} {c c' : Cursor} (h : member className rule access word c = .ok rule' c') :
    c'.reader.Before c.reader := by
  unfold member at h
  split at h
  · exact before_of_wildcard h
  split at h
  · exact before_of_wildcard h
  split at h
  · exact before_of_wildcard h
  simp only [bind_eq_ok, checkPattern_eq_ok] at h
  obtain ⟨_, _, ⟨-, rfl⟩, _, _, h₁, h⟩ := h
  split at h
  · split at h
    · exact (before_of_method h).trans (before_of_readWord h₁)
    · exact (reject_ne_ok h).elim
  · simp only [bind_eq_ok, checkPattern_eq_ok] at h
    obtain ⟨_, _, ⟨-, rfl⟩, _, _, h₂, h⟩ := h
    have hb := (before_of_readWord h₂).trans (before_of_readWord h₁)
    split at h
    · simp only [field, bind_eq_ok, liftModifier_eq_ok, pure_eq_ok] at h
      obtain ⟨_, _, ⟨-, rfl⟩, -, rfl⟩ := h
      exact hb
    split at h
    · exact (before_of_method h).trans hb
    · exact (reject_ne_ok h).elim

/-! ## The rule -/

/-- One more member, or `}`. -/
def memberRound (className : String) (rule : KeepRule) : Parser (Round KeepRule KeepRule) := do
  match ← modifierLoop.run {} with
  | none => return .done rule
  | some (access, word) =>
    let rule ← member className rule access word
    return .again rule

theorem before_of_memberRound {className : String} {rule : KeepRule} {c c' : Cursor}
    {r : Round KeepRule KeepRule} (h : memberRound className rule c = .ok r c') :
    c'.reader.Before c.reader := by
  simp only [memberRound, bind_eq_ok] at h
  obtain ⟨head, _, h₁, h⟩ := h
  have hb := Loop.before_of_run before_of_modifierRound h₁
  split at h
  · obtain ⟨-, rfl⟩ := pure_eq_ok.1 h
    exact hb
  · simp only [bind_eq_ok, pure_eq_ok] at h
    obtain ⟨_, _, h₂, -, rfl⟩ := h
    exact (before_of_member h₂).trans hb

def memberLoop (className : String) : Loop KeepRule KeepRule where
  round := memberRound className
  reads := before_of_memberRound

/-- An optional clause: one of the keywords and a class name. -/
def clause? (keywords : List String) (what : Expected) : Parser (Option String) := fun c =>
  if keywords.any c.is then
    (do
      let name ← readPattern what
      advance
      return some (ClassName.toInternal name) : Parser (Option String)) c
  else .ok none c

/-- The block of members, if the directive goes on. -/
def block (className : String) (rule : KeepRule) : Parser KeepRule := do
  if ← atEnd then return rule
  else if ← isAt "\x7b" then
    let rule ← (memberLoop className).run rule
    advance
    return rule
  else reject .expectedOpening

/-- A rule, after its keyword. The class name `*` stands for every class. -/
def parser (intent : KeepIntent) (comments : Option String) : Parser KeepRule := do
  let access ← classLoop.run {}
  let name ← readPattern .className
  advance
  let extendsName ← clause? ["implements", "extends"] .className
  let asName ← clause? ["as"] .newClassName
  block name
    { access := access
      className := if name = "*" then none else some (ClassName.toInternal name)
      extendsName := extendsName
      asName := asName
      intent := intent
      comments := comments }

theorem progress_of_clause? {keywords : List String} {what : Expected} {c c' : Cursor}
    {name : Option String} (h : clause? keywords what c = .ok name c') :
    c' = c ∨ c'.Progress c := by
  unfold clause? at h
  split at h
  · simp only [bind_eq_ok, readPattern_eq_ok, pure_eq_ok] at h
    obtain ⟨_, _, ⟨h₁, -⟩, _, _, h₂, -, rfl⟩ := h
    exact .inr ((progress_of_advance h₂).trans (progress_of_readWord h₁))
  · cases h
    exact .inl rfl

theorem progress_of_block {className : String} {rule rule' : KeepRule} {c c' : Cursor}
    (h : block className rule c = .ok rule' c') : c' = c ∨ c'.Progress c := by
  simp only [block, bind_eq_ok, atEnd_eq_ok] at h
  obtain ⟨_, _, ⟨-, rfl⟩, h⟩ := h
  split at h
  · exact .inl (pure_eq_ok.1 h).2.symm
  · simp only [bind_eq_ok, isAt_eq_ok] at h
    obtain ⟨_, _, ⟨-, rfl⟩, h⟩ := h
    split at h
    · simp only [bind_eq_ok, pure_eq_ok] at h
      obtain ⟨_, _, h₁, _, _, h₂, -, rfl⟩ := h
      exact .inr ((progress_of_advance h₂).trans (.of_before
        (Loop.before_of_run before_of_memberRound h₁)))
    · exact (reject_ne_ok h).elim

theorem parser_progress {intent : KeepIntent} {comments : Option String} {c c' : Cursor}
    {rule : KeepRule} (h : parser intent comments c = .ok rule c') : c'.Progress c := by
  simp only [parser, bind_eq_ok, readPattern_eq_ok] at h
  obtain ⟨_, c₁, h₁, _, c₂, ⟨h₂, -⟩, _, c₃, h₃, _, c₄, h₄, _, c₅, h₅, h₆⟩ := h
  have p₃ : c₃.Progress c := (progress_of_advance h₃).trans ((progress_of_readWord h₂).trans
    (.of_before (Loop.before_of_run before_of_classRound h₁)))
  have p₄ : c₄.Progress c := (progress_of_clause? h₄).elim (· ▸ p₃) (·.trans p₃)
  have p₅ : c₅.Progress c := (progress_of_clause? h₅).elim (· ▸ p₄) (·.trans p₄)
  exact (progress_of_block h₆).elim (· ▸ p₅) (·.trans p₅)

end KeepRules.KeepRule
