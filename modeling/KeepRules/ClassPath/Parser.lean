import KeepRules.ClassPath
import KeepRules.Parser

/-! # Reading class paths

`entry[(filter,...)][:entry...]`, up to the end of the directive. References to properties are
replaced in names and filters. -/

set_option autoImplicit false

namespace KeepRules

namespace ClassPath

open KeepRules.Parser

/-- One more filter. The list ends with the first word after a filter that is no comma. -/
def filterRound (ctx : Context) (filters : List String) :
    Parser (Round (List String) (List String)) := do
  let word ← readWord .filter
  let filter ← substitute ctx word
  let separator ← readWord .filterSeparator
  let filters := filters ++ [filter]
  return if separator = "," then .again filters else .done filters

theorem before_of_filterRound {ctx : Context} {filters : List String} {c c' : Cursor}
    {r : Round (List String) (List String)} (h : filterRound ctx filters c = .ok r c') :
    c'.reader.Before c.reader := by
  simp only [filterRound, bind_eq_ok, substitute_eq_ok, pure_eq_ok] at h
  obtain ⟨_, _, h₁, _, _, ⟨-, rfl⟩, _, _, h₂, -, rfl⟩ := h
  exact (before_of_readWord h₂).trans (before_of_readWord h₁)

def filterLoop (ctx : Context) : Loop (List String) (List String) where
  round := filterRound ctx
  reads := before_of_filterRound

/-- The filter in parentheses after a name, if there is one. -/
def filter? (ctx : Context) : Parser (Option String) := do
  if ← isAt "(" then
    let filters ← (filterLoop ctx).run []
    advance
    return some (",".intercalate filters)
  else return none

/-- One more entry. Another follows after a separator. -/
def entryRound (ctx : Context) (separator : Char) (path : ClassPath) :
    Parser (Round ClassPath ClassPath) := do
  let word ← readWord .pathEntry
  let name ← substitute ctx word
  advance
  let filter ← filter? ctx
  let path := path ++ [{ name := name, filter := filter }]
  if ← atEnd then return .done path
  else if ← isAt separator.toString then return .again path
  else reject (.expected (.pathSeparator separator))

theorem progress_of_filter? {ctx : Context} {c c' : Cursor} {f : Option String}
    (h : filter? ctx c = .ok f c') : c' = c ∨ c'.Progress c := by
  simp only [filter?, bind_eq_ok, isAt_eq_ok] at h
  obtain ⟨b, _, ⟨-, rfl⟩, h⟩ := h
  split at h
  · simp only [bind_eq_ok, pure_eq_ok] at h
    obtain ⟨_, _, h₁, _, _, h₂, -, rfl⟩ := h
    exact .inr ((progress_of_advance h₂).trans (Loop.progress_of_run
      (fun hr => .of_before (before_of_filterRound hr)) h₁))
  · exact .inl (pure_eq_ok.1 h).2.symm

theorem entryRound_eq_ok {ctx : Context} {separator : Char} {path : ClassPath} {c c' : Cursor}
    {r : Round ClassPath ClassPath} (h : entryRound ctx separator path c = .ok r c') :
    c'.Progress c ∧ (∀ p, r = .again p → c'.word.isSome = true) := by
  simp only [entryRound, bind_eq_ok, substitute_eq_ok, atEnd_eq_ok] at h
  obtain ⟨_, _, h₁, _, _, ⟨-, rfl⟩, _, c₂, h₂, _, c₃, h₃, b, _, ⟨-, rfl⟩, h⟩ := h
  have hp : c₃.Progress c := by
    have h₂₁ := (progress_of_advance h₂).trans (progress_of_readWord h₁)
    rcases progress_of_filter? h₃ with rfl | h₃
    · exact h₂₁
    · exact h₃.trans h₂₁
  split at h
  · obtain ⟨rfl, rfl⟩ := pure_eq_ok.1 h
    exact ⟨hp, nofun⟩
  · simp only [bind_eq_ok, isAt_eq_ok] at h
    obtain ⟨b', _, ⟨hb, rfl⟩, h⟩ := h
    split at h
    · next ht =>
      obtain ⟨rfl, rfl⟩ := pure_eq_ok.1 h
      refine ⟨hp, fun _ _ => ?_⟩
      have hw : c₃.word = some separator.toString := by simpa [Cursor.is, ht] using hb
      rw [hw]
      rfl
    · exact (reject_ne_ok h).elim

def entryLoop (ctx : Context) (separator : Char) : Loop ClassPath ClassPath where
  round := entryRound ctx separator
  reads h := (entryRound_eq_ok h).1.before ((entryRound_eq_ok h).2 _ rfl)

/-- Reads entries and appends them to the path. -/
def parser (ctx : Context) (path : ClassPath) : Parser ClassPath := fun c =>
  (entryLoop ctx c.reader.separator).run path c

theorem parser_progress {ctx : Context} {path p : ClassPath} {c c' : Cursor}
    (h : parser ctx path c = .ok p c') : c'.Progress c :=
  Loop.progress_of_run (fun hr => (entryRound_eq_ok hr).1) h

end ClassPath

end KeepRules
