import KeepRules.ClassPath.Parser
import KeepRules.Configuration
import KeepRules.Rule.Parser

/-! # Reading configurations

A configuration is a sequence of directives, each applied to the configuration read so far.
`Configuration.run` stops at the first error, with what has been read until then; a class path or
a list of attributes whose directive fails is lost. -/

set_option autoImplicit false

namespace KeepRules

namespace Context

/-- The properties of the machine, as the settings have them. -/
def ofSettings (host : Host) (settings : Settings) : Context where
  host := host
  properties :=
    { (Properties.system host).set "path.separator" settings.pathSeparator.toString with
      inherits := settings.inheritEnvironment }

end Context

namespace Parser

/-- Puts a source on top of the reader. The lookahead stays. -/
def enter (source : Source) : Parser Unit := fun c =>
  match c.reader.includeSource source with
  | .ok () reader => .ok () { c with reader := reader }
  | .error e reader => .error e { c with reader := reader }

def liftError {α : Type} (r : Except ParseError α) : Parser α := fun c =>
  match r with
  | .ok a => .ok a c
  | .error e => .error e c

/-- `@file` or `-include file`, after the keyword: reading goes on in the file. -/
def includeFile (ctx : Context) : Parser Unit := do
  let word ← readWord .fileName
  let name ← substitute ctx word
  let source ← liftError (Source.ofFile ctx.host name)
  enter source
  advance

/-- One more attribute name, the lookahead. A comma calls for another. -/
def attributeRound (names : List String) : Parser (Round (List String) (List String)) := do
  let name ← current
  advance
  if ← atEnd then return .done (names ++ [name])
  else if ← isAt "," then
    let _ ← readWord .attributeName
    return .again (names ++ [name])
  else reject (.expected .attributeSeparator)

theorem attributeRound_eq_ok {names : List String} {c c' : Cursor}
    {r : Round (List String) (List String)} (h : attributeRound names c = .ok r c') :
    c'.Progress c ∧ (∀ l, r = .again l → c'.reader.Before c.reader) := by
  simp only [attributeRound, bind_eq_ok, current_eq_ok, atEnd_eq_ok] at h
  obtain ⟨_, _, ⟨-, rfl⟩, _, _, h₁, _, _, ⟨-, rfl⟩, h⟩ := h
  split at h
  · obtain ⟨rfl, rfl⟩ := pure_eq_ok.1 h
    exact ⟨progress_of_advance h₁, nofun⟩
  · simp only [bind_eq_ok, isAt_eq_ok] at h
    obtain ⟨_, _, ⟨-, rfl⟩, h⟩ := h
    split at h
    · simp only [bind_eq_ok, pure_eq_ok] at h
      obtain ⟨_, _, h₂, -, rfl⟩ := h
      have hb := (before_of_readWord h₂).of_atMost (progress_of_advance h₁).atMost
      exact ⟨.of_before hb, fun _ _ => hb⟩
    · exact (reject_ne_ok h).elim

def attributeLoop : Loop (List String) (List String) where
  round := attributeRound
  reads h := (attributeRound_eq_ok h).2 _ rfl

/-- Attribute names, appended to those before; `*` or nothing stands for all attributes. -/
def attributes (names : List String) : Parser (List String) := do
  advance
  if ← atEnd then return []
  else if ← isAt "*" then
    advance
    return []
  else attributeLoop.run names

/-- An optional single word, the empty text when it is left out. -/
def argument : Parser String := do
  advance
  if ← atEnd then return ""
  else
    let word ← current
    advance
    return word

end Parser

namespace TextOption

/-- A package is held by its internal name, every other argument as it is written. -/
def value (o : TextOption) (argument : String) : String :=
  if o = defaultPackage then ClassName.toInternal argument else argument

end TextOption

namespace Configuration

open KeepRules.Parser

/-- The configuration after a directive, with how the directive ended. -/
abbrev Outcome := Configuration × EStateM.Result ParseError Cursor Unit

def settle {α : Type} (r : EStateM.Result ParseError Cursor α) (done : α → Configuration)
    (failed : Configuration) : Outcome :=
  match r with
  | .ok a c => (done a, .ok () c)
  | .error e c => (failed, .error e c)

/-- Applies a directive whose keyword is the lookahead. -/
def apply (ctx : Context) (comments : Option String) (config : Configuration) (d : Directive)
    (c : Cursor) : Outcome :=
  match d with
  | .includeFile => settle (includeFile ctx c) (fun _ => config) config
  | .classPath role =>
    settle (ClassPath.parser ctx ((config.path role).getD []) c)
      (fun path => config.setPath role (some path)) (config.setPath role none)
  | .keep intent => settle (KeepRule.parser intent comments c) config.addRule config
  | .keepAttributes =>
    settle (attributes (config.keepAttributes.getD []) c)
      (fun names => { config with keepAttributes := some names })
      { config with keepAttributes := none }
  | .text o => settle (argument c) (fun word => config.setText o (some (o.value word))) config
  | .switch s => settle (advance c) (fun _ => config.setSwitch s s.thrown) config

/-- One directive that starts with the given lookahead. It takes the comments read so far. -/
def step (ctx : Context) (config : Configuration) (word : String) (c : Cursor) : Outcome :=
  let (comments, reader) := c.reader.takeComments
  match Directive.lookup? word with
  | none => (config, reject .unknownDirective { c with reader := reader })
  | some (keyword, d) =>
    apply ctx comments config d { c with reader := reader.record (.dispatching keyword word) }

theorem progress_of_includeFile {ctx : Context} {c c' : Cursor} {u : Unit}
    (h : includeFile ctx c = .ok u c') : c'.Progress c := by
  simp only [includeFile, bind_eq_ok, substitute_eq_ok] at h
  obtain ⟨_, c₁, h₁, _, _, ⟨-, rfl⟩, source, c₂, h₂, _, c₃, h₃, h₄⟩ := h
  have e₂ : c₁ = c₂ := by
    unfold liftError at h₂
    split at h₂ <;> cases h₂
    rfl
  subst e₂
  have hb : c₃.reader.Before c.reader := by
    unfold enter at h₃
    split at h₃
    · next hi =>
      cases h₃
      exact Reader.before_of_includeSource hi (before_of_readWord h₁)
    · cases h₃
  exact (progress_of_advance h₄).trans (.of_before hb)

theorem progress_of_attributes {names l : List String} {c c' : Cursor}
    (h : attributes names c = .ok l c') : c'.Progress c := by
  simp only [attributes, bind_eq_ok, atEnd_eq_ok] at h
  obtain ⟨_, _, h₁, _, _, ⟨-, rfl⟩, h⟩ := h
  split at h
  · obtain ⟨-, rfl⟩ := pure_eq_ok.1 h
    exact progress_of_advance h₁
  · simp only [bind_eq_ok, isAt_eq_ok] at h
    obtain ⟨_, _, ⟨-, rfl⟩, h⟩ := h
    split at h
    · simp only [bind_eq_ok, pure_eq_ok] at h
      obtain ⟨_, _, h₂, -, rfl⟩ := h
      exact (progress_of_advance h₂).trans (progress_of_advance h₁)
    · exact (Loop.progress_of_run (fun hr => (attributeRound_eq_ok hr).1) h).trans
        (progress_of_advance h₁)

theorem progress_of_argument {word : String} {c c' : Cursor}
    (h : argument c = .ok word c') : c'.Progress c := by
  simp only [argument, bind_eq_ok, atEnd_eq_ok] at h
  obtain ⟨_, _, h₁, _, _, ⟨-, rfl⟩, h⟩ := h
  split at h
  · obtain ⟨-, rfl⟩ := pure_eq_ok.1 h
    exact progress_of_advance h₁
  · simp only [bind_eq_ok, current_eq_ok, pure_eq_ok] at h
    obtain ⟨_, _, ⟨-, rfl⟩, _, _, h₂, -, rfl⟩ := h
    exact (progress_of_advance h₂).trans (progress_of_advance h₁)

theorem settle_snd_eq_ok {α : Type} {r : EStateM.Result ParseError Cursor α}
    {done : α → Configuration} {failed : Configuration} {c : Cursor}
    (h : (settle r done failed).2 = .ok () c) : ∃ a, r = .ok a c := by
  cases r with
  | ok a c₁ => cases h; exact ⟨a, rfl⟩
  | error e c₁ => cases h

theorem progress_of_apply {ctx : Context} {comments : Option String} {config : Configuration}
    {d : Directive} {c c' : Cursor} (h : (apply ctx comments config d c).2 = .ok () c') :
    c'.Progress c := by
  unfold apply at h
  split at h <;> obtain ⟨_, h⟩ := settle_snd_eq_ok h
  · exact progress_of_includeFile h
  · exact ClassPath.parser_progress h
  · exact KeepRule.parser_progress h
  · exact progress_of_attributes h
  · exact progress_of_argument h
  · exact progress_of_advance h

theorem progress_of_step {ctx : Context} {config : Configuration} {word : String} {c c' : Cursor}
    (h : (step ctx config word c).2 = .ok () c') : c'.Progress c := by
  simp only [step, Reader.takeComments] at h
  split at h
  · cases h
  · obtain ⟨hm, hb⟩ := progress_of_apply h
    refine ⟨hm.imp (fun h => ⟨h.limit, h.length, h.drops⟩) fun h => ⟨h.limit, h.sizes⟩,
      fun hw => ⟨(hb hw).limit, (hb hw).length, (hb hw).drops⟩⟩

/-- Reads every directive that is left into the configuration. -/
def run (ctx : Context) (config : Configuration) (c : Cursor) : Outcome :=
  match _hw : c.word with
  | none =>
    let summary : Event :=
      .parsed config.keep.length (config.inJars.getD []).length (config.outJars.getD []).length
    (config, .ok () { c with reader := c.reader.record summary })
  | some word =>
    match _h : step ctx config word c with
    | (config', .error e c') => (config', .error e c')
    | (config', .ok () c') => run ctx config' c'
termination_by (c.word.isSome.toNat, c.reader)
decreasing_by
  have hp : c'.Progress c := progress_of_step (congrArg Prod.snd _h)
  rw [_hw]
  cases hw : c'.word with
  | none => exact .left _ _ Nat.zero_lt_one
  | some w => exact .right _ (hp.before (by rw [hw]; rfl))

theorem run_of_none {ctx : Context} {config : Configuration} {c : Cursor} (h : c.word = none) :
    run ctx config c =
      (config, .ok () { c with
        reader := c.reader.record (.parsed config.keep.length (config.inJars.getD []).length
          (config.outJars.getD []).length) }) := by
  rw [run]
  split
  · rfl
  · next hw => rw [h] at hw; cases hw

/-- One directive, then the rest of the run. -/
theorem run_of_some {ctx : Context} {config : Configuration} {word : String} {c : Cursor}
    (h : c.word = some word) :
    run ctx config c =
      match step ctx config word c with
      | (config', .error e c') => (config', .error e c')
      | (config', .ok () c') => run ctx config' c' := by
  rw [run]
  split
  · next hw => rw [h] at hw; cases hw
  · next hw =>
    obtain rfl : word = _ := Option.some.inj (h.symm.trans hw)
    split <;> next hs => rw [hs]

/-- Reads a source into a fresh configuration. -/
def ofSource (ctx : Context) (settings : Settings) (source : Source) :
    Except ParseError Configuration := do
  let cursor ← Cursor.ofReader (.ofSource source settings)
  match run ctx {} cursor with
  | (config, .ok () _) => return config
  | (_, .error e _) => throw e

/-- Reads a text that goes by the name of a file. -/
def ofText (host : Host) (settings : Settings) (name text : String) :
    Except ParseError Configuration :=
  ofSource (.ofSettings host settings) settings (.ofText name text)

end Configuration

end KeepRules
