import KeepRules.Cursor
import KeepRules.Identifier

/-! # Parser steps

A parser step takes a cursor and succeeds or fails with the cursor where it stopped. Repetition is
a `Loop`: a round that calls for another round has read a word, so the rounds come to an end
(`Loop.run`), and what holds of single rounds carries over to runs (`Loop.run_induction`). -/

set_option autoImplicit false

namespace KeepRules

abbrev Parser (α : Type) := EStateM ParseError Cursor α

namespace Parser

variable {α β : Type}

/-- Replaces the lookahead by the next word. -/
def advance : Parser Unit := fun c =>
  match c.reader.next with
  | .ok word reader => .ok () { reader := reader, word := word }
  | .error e reader => .error e { c with reader := reader }

/-- Fails at the lookahead. -/
def reject (reason : Reason) : Parser α := fun c => .error (.rejected reason c.reader.location) c

/-- Whether the lookahead is exactly this word. -/
def isAt (literal : String) : Parser Bool := fun c => .ok (c.is literal) c

/-- Whether the directive is over. -/
def atEnd : Parser Bool := fun c => .ok c.atEnd c

/-- The lookahead, or the empty text when there is none. -/
def current : Parser String := fun c => .ok (c.word.getD "") c

/-- The next word, which must not end the directive. -/
def readWord (what : Expected) : Parser String := do
  advance
  if ← atEnd then reject (.expected what) else current

/-- The word must be an identifier pattern. -/
def checkPattern (word : String) (what : Expected) : Parser Unit :=
  if Identifier.isPattern word then pure () else reject (.expected what)

/-- The next word, which must be an identifier pattern. -/
def readPattern (what : Expected) : Parser String := do
  let word ← readWord what
  checkPattern word what
  return word

def getOrReject (o : Option α) (reason : Reason) : Parser α :=
  match o with
  | some a => pure a
  | none => reject reason

def liftModifier (r : Except ModifierError α) : Parser α :=
  match r with
  | .ok a => pure a
  | .error e => reject (.modifier e)

/-- The word with its references to properties replaced. -/
def substitute (ctx : Context) (word : String) : Parser String :=
  match ctx.replace word with
  | .ok text => pure text
  | .error e => reject (.property e)

/-! ## One step after the other -/

theorem map_apply {p : Parser α} {f : α → β} {c : Cursor} :
    (f <$> p) c =
      match p c with
      | .ok a c' => .ok (f a) c'
      | .error e c' => .error e c' := by
  show EStateM.map f p c = _
  unfold EStateM.map
  cases p c <;> rfl

theorem bind_apply {p : Parser α} {f : α → Parser β} {c : Cursor} :
    (p >>= f) c =
      match p c with
      | .ok a c' => f a c'
      | .error e c' => .error e c' := by
  show EStateM.bind p f c = _
  unfold EStateM.bind
  cases p c <;> rfl

/-! ## Successful steps -/

theorem bind_eq_ok {p : Parser α} {f : α → Parser β} {c c' : Cursor} {b : β} :
    (p >>= f) c = .ok b c' ↔ ∃ a c₁, p c = .ok a c₁ ∧ f a c₁ = .ok b c' := by
  show EStateM.bind p f c = _ ↔ _
  unfold EStateM.bind
  split
  · next a c₁ h =>
    exact ⟨fun hf => ⟨a, c₁, h, hf⟩, fun ⟨_, _, h', hf⟩ => by
      rw [h] at h'; cases h'; exact hf⟩
  · next e c₁ h => simp [h]

theorem pure_eq_ok {a b : α} {c c' : Cursor} :
    (pure a : Parser α) c = .ok b c' ↔ a = b ∧ c = c' := by
  show EStateM.Result.ok a c = _ ↔ _
  rw [EStateM.Result.ok.injEq]

theorem reject_ne_ok {reason : Reason} {c c' : Cursor} {a : α} :
    ¬ (reject reason : Parser α) c = .ok a c' := nofun

theorem isAt_eq_ok {literal : String} {c c' : Cursor} {b : Bool} :
    isAt literal c = .ok b c' ↔ c.is literal = b ∧ c = c' := by
  simp [isAt]

theorem atEnd_eq_ok {c c' : Cursor} {b : Bool} :
    atEnd c = .ok b c' ↔ c.atEnd = b ∧ c = c' := by
  simp [atEnd]

theorem current_eq_ok {c c' : Cursor} {w : String} :
    current c = .ok w c' ↔ c.word.getD "" = w ∧ c = c' := by
  simp [current]

theorem getOrReject_eq_ok {o : Option α} {reason : Reason} {c c' : Cursor} {a : α} :
    getOrReject o reason c = .ok a c' ↔ o = some a ∧ c = c' := by
  cases o with
  | some b => simp [getOrReject, pure_eq_ok]
  | none => simp [getOrReject, reject_ne_ok]

theorem liftModifier_eq_ok {r : Except ModifierError α} {c c' : Cursor} {a : α} :
    liftModifier r c = .ok a c' ↔ r = .ok a ∧ c = c' := by
  cases r with
  | ok b => simp [liftModifier, pure_eq_ok]
  | error e => simp [liftModifier, reject_ne_ok]

theorem substitute_eq_ok {ctx : Context} {word text : String} {c c' : Cursor} :
    substitute ctx word c = .ok text c' ↔ ctx.replace word = .ok text ∧ c = c' := by
  cases h : ctx.replace word with
  | ok t => simp [substitute, h, pure_eq_ok]
  | error e => simp [substitute, h, reject_ne_ok]

theorem checkPattern_eq_ok {word : String} {what : Expected} {c c' : Cursor} {u : Unit} :
    checkPattern word what c = .ok u c' ↔ Identifier.isPattern word = true ∧ c = c' := by
  unfold checkPattern
  split
  · next h => simp [pure_eq_ok, h]
  · next h => simp [reject_ne_ok, h]

theorem readWord_eq_ok {what : Expected} {c c' : Cursor} {w : String} :
    readWord what c = .ok w c' ↔
      advance c = .ok () c' ∧ c'.word = some w ∧ Directive.starts w = false := by
  simp only [readWord, bind_eq_ok, atEnd_eq_ok]
  constructor
  · rintro ⟨_, c₁, h₁, b, _, ⟨hb, rfl⟩, h⟩
    split at h
    · exact (reject_ne_ok h).elim
    · next hf =>
      obtain ⟨hw, rfl⟩ := current_eq_ok.1 h
      cases hc : c₁.word with
      | none => simp [← hb, Cursor.atEnd, hc] at hf
      | some v =>
        simp only [hc, Option.getD_some] at hw
        subst hw
        refine ⟨h₁, rfl, ?_⟩
        simpa [← hb, Cursor.atEnd, hc] using hf
  · rintro ⟨h₁, hw, hs⟩
    refine ⟨(), c', h₁, false, c', ⟨by simp [Cursor.atEnd, hw, hs], rfl⟩, ?_⟩
    simp [current, hw]

theorem readPattern_eq_ok {what : Expected} {c c' : Cursor} {w : String} :
    readPattern what c = .ok w c' ↔
      readWord what c = .ok w c' ∧ Identifier.isPattern w = true := by
  simp only [readPattern, bind_eq_ok, checkPattern_eq_ok, pure_eq_ok]
  constructor
  · rintro ⟨_, _, h, -, _, ⟨hw, rfl⟩, rfl, rfl⟩
    exact ⟨h, hw⟩
  · rintro ⟨h, hw⟩
    exact ⟨w, c', h, (), c', ⟨hw, rfl⟩, rfl, rfl⟩

theorem progress_of_advance {c c' : Cursor} {u : Unit} (h : advance c = .ok u c') :
    c'.Progress c := by
  unfold advance at h
  split at h
  · next word reader hr =>
    cases h
    cases word with
    | none => exact ⟨.inr (Reader.reaches_of_next hr), nofun⟩
    | some w => exact .of_before (Reader.before_of_next hr)
  · cases h

theorem before_of_readWord {what : Expected} {c c' : Cursor} {w : String}
    (h : readWord what c = .ok w c') : c'.reader.Before c.reader := by
  obtain ⟨ha, hw, -⟩ := readWord_eq_ok.1 h
  exact (progress_of_advance ha).before (by rw [hw]; rfl)

theorem progress_of_readWord {what : Expected} {c c' : Cursor} {w : String}
    (h : readWord what c = .ok w c') : c'.Progress c := .of_before (before_of_readWord h)

end Parser

/-! ## Loops -/

/-- What a round of a loop comes to. -/
inductive Round (α β : Type) where
  | again (state : α)
  | done (result : β)

/-- A loop whose rounds read a word whenever they call for another round. -/
structure Loop (α β : Type) where
  round : α → Parser (Round α β)
  reads : ∀ {a a' : α} {c c' : Cursor}, round a c = .ok (.again a') c' →
    c'.reader.Before c.reader

namespace Loop

variable {α β : Type}

/-- Runs rounds from a cursor until one is the last. -/
def runFrom (l : Loop α β) (a : α) (c : Cursor) : EStateM.Result ParseError Cursor β :=
  match _h : l.round a c with
  | .error e c' => .error e c'
  | .ok (.done b) c' => .ok b c'
  | .ok (.again a') c' => l.runFrom a' c'
termination_by c.reader
decreasing_by exact l.reads _h

def run (l : Loop α β) (a : α) : Parser β := fun c => l.runFrom a c

/-- One round, then the rest of the run. -/
theorem run_apply (l : Loop α β) (a : α) (c : Cursor) :
    l.run a c =
      match l.round a c with
      | .error e c' => .error e c'
      | .ok (.done b) c' => .ok b c'
      | .ok (.again a') c' => l.run a' c' := by
  unfold run
  rw [runFrom]
  split <;> next h => rw [h]

/-- A run fails where its first round does. -/
theorem run_of_reject {l : Loop α β} {a : α} {c c' : Cursor} {reason : Reason}
    (h : l.round a c = Parser.reject reason c') : l.run a c = Parser.reject reason c' := by
  rw [run_apply, h]
  rfl

/-- What holds of the last round and is kept by adding a round in front holds of runs. -/
theorem run_induction {l : Loop α β} {P : α → Cursor → β → Cursor → Prop}
    (done : ∀ {a c b c'}, l.round a c = .ok (.done b) c' → P a c b c')
    (again : ∀ {a c a' c' b c''}, l.round a c = .ok (.again a') c' → P a' c' b c'' → P a c b c'')
    {a : α} {c : Cursor} {b : β} {c' : Cursor} (h : l.run a c = .ok b c') : P a c b c' := by
  unfold run at h
  fun_induction runFrom l a c with
  | case1 => cases h
  | case2 a c b' c₁ hr => cases h; exact done hr
  | case3 a c a' c₁ hr ih => exact again hr (ih h)

theorem progress_of_run {l : Loop α β}
    (done : ∀ {a c b c'}, l.round a c = .ok (.done b) c' → c'.Progress c)
    {a : α} {c : Cursor} {b : β} {c' : Cursor} (h : l.run a c = .ok b c') : c'.Progress c :=
  run_induction (P := fun _ c _ c' => c'.Progress c) done
    (fun hr hp => hp.trans (.of_before (l.reads hr))) h

theorem before_of_run {l : Loop α β}
    (done : ∀ {a c b c'}, l.round a c = .ok (.done b) c' → c'.reader.Before c.reader)
    {a : α} {c : Cursor} {b : β} {c' : Cursor} (h : l.run a c = .ok b c') :
    c'.reader.Before c.reader :=
  run_induction (P := fun _ c _ c' => c'.reader.Before c.reader) done
    (fun hr hp => hp.trans (l.reads hr)) h

end Loop

end KeepRules
