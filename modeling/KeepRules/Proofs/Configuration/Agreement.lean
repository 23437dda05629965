import KeepRules.Proofs.Agreement
import KeepRules.Proofs.Configuration.WellFormed

/-! # Two runs side by side

Two runs over paired cursors go on in step, directive by directive.

* `KeepRule.parser_eq_map`: a rule only carries its comments along. So runs can be compared up to
  comments: `Configuration.mapComments` changes all of them, and `Configuration.uncommented` drops
  them.
* `RunPairing`: a pairing of cursors that dispatching and including keep. Where the readings are not
  equally deep in includes, it is lenient: one run may fail because it is too deep.
* `run_of_paired`: two runs that start paired fail alike, or leave the stretch that they have in
  common with configurations that are alike. -/

set_option autoImplicit false

namespace KeepRules

/-! ## Comments are carried along -/

namespace Parser

variable {α β : Type}

theorem map_reject {f : α → β} {reason : Reason} :
    f <$> (reject reason : Parser α) = reject reason := rfl

end Parser

open KeepRules.Parser

/-- The state or the result of a round, changed. -/
def Round.map {α β α' β' : Type} (f : α → α') (g : β → β') : Round α β → Round α' β'
  | .again a => .again (f a)
  | .done b => .done (g b)

/-- What every round carries along is carried along by the loop. -/
theorem Loop.run_map {α : Type} {l : Loop α α} {f : α → α}
    (h : ∀ a, l.round (f a) = Round.map f f <$> l.round a) (a : α) :
    l.run (f a) = f <$> l.run a := by
  funext c
  rw [map_apply, show l.run a = l.runFrom a from rfl]
  fun_induction Loop.runFrom l a c with
  | case1 a c e c₁ hr => rw [run_apply, h, map_apply, hr]
  | case2 a c b c₁ hr =>
    rw [run_apply, h, map_apply, hr]
    rfl
  | case3 a c a' c₁ hr ih =>
    rw [run_apply, h, map_apply, hr]
    exact ih

namespace KeepRule

def withComments (comments : Option String) (r : KeepRule) : KeepRule :=
  { r with comments := comments }

section
variable {comments : Option String}

theorem wildcard_withComments (rule : KeepRule) (access : Access) (fields methods : Bool) :
    wildcard (rule.withComments comments) access fields methods =
      withComments comments <$> wildcard rule access fields methods := by
  simp only [wildcard, map_bind, map_pure]
  cases fields <;> cases methods <;> rfl

theorem method_withComments (rule : KeepRule) (access : Access) (type name : String) :
    method (rule.withComments comments) access type name =
      withComments comments <$> method rule access type name := by
  simp only [method, map_bind, map_pure]
  rfl

theorem field_withComments (rule : KeepRule) (access : Access) (type name : String) :
    field (rule.withComments comments) access type name =
      withComments comments <$> field rule access type name := by
  simp only [field, map_bind, map_pure]
  rfl

theorem member_withComments (className : String) (rule : KeepRule) (access : Access)
    (word : String) :
    member className (rule.withComments comments) access word =
      withComments comments <$> member className rule access word := by
  simp only [member, apply_ite (withComments comments <$> ·), map_bind, map_reject,
    wildcard_withComments, method_withComments, field_withComments]

theorem memberRound_withComments (className : String) (rule : KeepRule) :
    memberRound className (rule.withComments comments) =
      Round.map (withComments comments) (withComments comments) <$> memberRound className rule := by
  simp only [memberRound, map_bind]
  congr 1
  funext head
  cases head with
  | none => rfl
  | some head =>
    simp only [member_withComments, map_bind, bind_map_left, map_pure]
    rfl

theorem block_withComments (className : String) (rule : KeepRule) :
    block className (rule.withComments comments) =
      withComments comments <$> block className rule := by
  simp only [block, map_bind, apply_ite (withComments comments <$> ·), map_pure, map_reject]
  rw [Loop.run_map (l := memberLoop className) (memberRound_withComments className)]
  simp only [bind_map_left]

end

/-- The comments of a rule have no part in reading it. -/
theorem parser_eq_map (intent : KeepIntent) (comments : Option String) :
    parser intent comments = withComments comments <$> parser intent none := by
  simp only [parser, map_bind, ← block_withComments]
  rfl

def mapComments (f : Option String → Option String) (r : KeepRule) : KeepRule :=
  r.withComments (f r.comments)

end KeepRule

namespace Configuration

/-- The configuration with the comments of each rule changed. -/
def mapComments (f : Option String → Option String) (c : Configuration) : Configuration :=
  { c with keep := c.keep.map (KeepRule.mapComments f) }

/-- The configuration without the comments of its rules. -/
def uncommented (c : Configuration) : Configuration := c.mapComments fun _ => none

@[simp] theorem mapComments_id (c : Configuration) : c.mapComments id = c := by
  have hid : KeepRule.mapComments id = id := rfl
  unfold mapComments
  rw [hid, List.map_id]

section
variable (f : Option String → Option String) (c : Configuration)

@[simp] theorem path_mapComments (role : PathRole) : (c.mapComments f).path role = c.path role := by
  cases role <;> rfl

theorem mapComments_setPath (role : PathRole) (p : Option ClassPath) :
    (c.setPath role p).mapComments f = (c.mapComments f).setPath role p := by
  cases role <;> rfl

theorem mapComments_setText (o : TextOption) (t : Option String) :
    (c.setText o t).mapComments f = (c.mapComments f).setText o t := by
  cases o <;> rfl

theorem mapComments_setSwitch (s : Switch) (b : Bool) :
    (c.setSwitch s b).mapComments f = (c.mapComments f).setSwitch s b := by
  cases s <;> rfl

theorem mapComments_addRule (r : KeepRule) :
    (c.addRule r).mapComments f = (c.mapComments f).addRule (r.mapComments f) := by
  simp [mapComments, addRule]

end

/-! ## One directive -/

/-- A result that fails because includes are nested too deep. -/
def TooDeep {α : Type} (r : EStateM.Result ParseError Cursor α) : Prop :=
  ∃ limit location c, r = .error (.rejected (.nestedTooDeep limit) location) c

/-- Cursors of two readings that go through the same words, also when these include further
sources. `shown` is what is compared of comments. A lenient pairing does not keep the readings
equally deep. -/
structure RunPairing (shown : Option String → Option String) (lenient : Prop)
    extends Pairing where
  comments : ∀ {c c' : Cursor}, Within c c' →
    shown c'.reader.top.comments = shown c.reader.top.comments
  dispatches : ∀ {c c' : Cursor}, Within c c' → ∀ keyword word,
    Within (dispatched c keyword word) (dispatched c' keyword word)
  enters : ∀ {c c' : Cursor}, Within c c' → ∀ source,
    Agree (fun _ => Within) (enter source c) (enter source c') ∨
      lenient ∧ (TooDeep (enter source c) ∨ TooDeep (enter source c'))

section
variable {shown : Option String → Option String} {lenient : Prop}

/-- The configurations are the same, as far as comments are compared, and the directives ended in
the same way. -/
structure Alike (shown : Option String → Option String) (Q : Cursor → Cursor → Prop)
    (o o' : Outcome) : Prop where
  config : o'.1.mapComments shown = o.1.mapComments shown
  result : Agree (fun _ => Q) o.2 o'.2

theorem alike_settle {α : Type} {Q : Cursor → Cursor → Prop}
    {r r' : EStateM.Result ParseError Cursor α} {done done' : α → Configuration}
    {failed failed' : Configuration} (h : Agree (fun _ => Q) r r')
    (hd : ∀ a, (done' a).mapComments shown = (done a).mapComments shown)
    (hf : failed'.mapComments shown = failed.mapComments shown) :
    Alike shown Q (settle r done failed) (settle r' done' failed') := by
  cases h with
  | ok hq => exact ⟨hd _, .ok hq⟩
  | error he => exact ⟨hf, .error he⟩

theorem settle_map {α β : Type} {p : Parser α} {f : α → β} {c : Cursor}
    {done : β → Configuration} {failed : Configuration} :
    settle ((f <$> p) c) done failed = settle (p c) (done ∘ f) failed := by
  rw [map_apply]
  cases p c <;> rfl

theorem tooDeep_settle {α : Type} {r : EStateM.Result ParseError Cursor α}
    {done : α → Configuration} {failed : Configuration} (h : TooDeep r) :
    TooDeep (settle r done failed).2 := by
  obtain ⟨limit, location, c, rfl⟩ := h
  exact ⟨limit, location, c, rfl⟩

/-- Results that agree, unless one of them fails because it is too deep. -/
def AgreeOr (lenient : Prop) {α : Type} (Q : α → Cursor → Cursor → Prop)
    (r r' : EStateM.Result ParseError Cursor α) : Prop :=
  Agree Q r r' ∨ lenient ∧ (TooDeep r ∨ TooDeep r')

theorem tooDeep_bind {α β : Type} {p : Parser α} {f : α → Parser β} {c : Cursor}
    (h : TooDeep (p c)) : TooDeep ((p >>= f) c) := by
  obtain ⟨limit, location, c₁, hp⟩ := h
  exact ⟨limit, location, c₁, by rw [bind_apply, hp]⟩

theorem agreeOr_bind {α β : Type} {p : Parser α} {f : α → Parser β} {c c' : Cursor}
    {Q : α → Cursor → Cursor → Prop} {R : β → Cursor → Cursor → Prop}
    (hp : AgreeOr lenient Q (p c) (p c'))
    (hf : ∀ a c c', Q a c c' → AgreeOr lenient R (f a c) (f a c')) :
    AgreeOr lenient R ((p >>= f) c) ((p >>= f) c') := by
  rcases hp with hp | ⟨hl, hp | hp⟩
  · rw [bind_apply, bind_apply]
    cases hr : p c with
    | ok a c₁ =>
      obtain ⟨c₁', hr', hq⟩ := (hr ▸ hp).of_ok
      rw [hr']
      exact hf a c₁ c₁' hq
    | error e c₁ =>
      obtain ⟨e', c₁', hr', he⟩ := (hr ▸ hp).of_error
      rw [hr']
      exact .inl (.error he)
  · exact .inr ⟨hl, .inl (tooDeep_bind hp)⟩
  · exact .inr ⟨hl, .inr (tooDeep_bind hp)⟩

variable (S : RunPairing shown lenient)

theorem agreeOr_includeFile (ctx : Context) {c c' : Cursor} (h : S.Within c c') :
    AgreeOr lenient (fun _ => S.Paired) (includeFile ctx c) (includeFile ctx c') :=
  agreeOr_bind (.inl (S.readWord c c' h)) fun _ _ _ h =>
    agreeOr_bind (.inl (Respects.substitute _ _ h)) fun _ _ _ h =>
      agreeOr_bind (.inl (Respects.liftError _ _ h)) fun source _ _ h =>
        agreeOr_bind (S.enters h source) fun _ c₁ c₁' h => .inl (S.advance c₁ c₁' h)

/-- Outcomes that are alike, unless one of them fails because it is too deep. -/
def AlikeOr (shown : Option String → Option String) (lenient : Prop) (Q : Cursor → Cursor → Prop)
    (o o' : Outcome) : Prop :=
  Alike shown Q o o' ∨ lenient ∧ (TooDeep o.2 ∨ TooDeep o'.2)

theorem apply_of_within {ctx : Context} {comments comments' : Option String}
    {config config' : Configuration} {d : Directive} {c c' : Cursor} (h : S.Within c c')
    (hk : shown comments' = shown comments)
    (hc : config'.mapComments shown = config.mapComments shown) :
    AlikeOr shown lenient S.Paired (apply ctx comments config d c)
      (apply ctx comments' config' d c') := by
  cases d with
  | includeFile =>
    rcases agreeOr_includeFile S ctx h with ha | ⟨hl, hd | hd⟩
    · exact .inl (alike_settle ha (fun _ => hc) hc)
    · exact .inr ⟨hl, .inl (tooDeep_settle hd)⟩
    · exact .inr ⟨hl, .inr (tooDeep_settle hd)⟩
  | classPath role =>
    have hpath : config'.path role = config.path role := by
      simpa using congrArg (Configuration.path · role) hc
    refine .inl (alike_settle (hpath ▸ S.classPath c c' h) (fun path => ?_) ?_)
    · rw [mapComments_setPath, mapComments_setPath, hc]
    · rw [mapComments_setPath, mapComments_setPath, hc]
  | keep intent =>
    left
    show Alike shown S.Paired (settle (KeepRule.parser intent comments c) config.addRule config)
      (settle (KeepRule.parser intent comments' c') config'.addRule config')
    rw [KeepRule.parser_eq_map intent comments, settle_map,
      KeepRule.parser_eq_map intent comments', settle_map]
    refine alike_settle (S.keepRule c c' h) (fun rule => ?_) hc
    simp only [Function.comp_apply, mapComments_addRule, hc]
    exact congrArg (fun k => (config.mapComments shown).addRule (rule.withComments k)) hk
  | keepAttributes =>
    have hnames : config'.keepAttributes = config.keepAttributes := by
      show (config'.mapComments shown).keepAttributes = (config.mapComments shown).keepAttributes
      rw [hc]
    refine .inl (alike_settle (hnames ▸ S.attributes c c' h) (fun names => ?_) ?_)
    · exact congrArg (fun d : Configuration => { d with keepAttributes := some names }) hc
    · exact congrArg (fun d : Configuration => { d with keepAttributes := none }) hc
  | text o =>
    refine .inl (alike_settle (S.argument c c' h) (fun word => ?_) hc)
    rw [mapComments_setText, mapComments_setText, hc]
  | switch s =>
    refine .inl (alike_settle (S.advance c c' h) (fun _ => ?_) hc)
    rw [mapComments_setSwitch, mapComments_setSwitch, hc]

theorem step_of_within (ctx : Context) (word : String) {config config' : Configuration}
    {c c' : Cursor} (h : S.Within c c')
    (hc : config'.mapComments shown = config.mapComments shown) :
    AlikeOr shown lenient S.Paired (step ctx config word c) (step ctx config' word c') := by
  cases hl : Directive.lookup? word with
  | none =>
    simp only [step, hl]
    exact .inl ⟨hc, .error rfl⟩
  | some p =>
    obtain ⟨keyword, d⟩ := p
    rw [step_eq_of_lookup? hl, step_eq_of_lookup? hl]
    exact apply_of_within S (S.dispatches h keyword word) (S.comments h) hc

/-! ## Runs -/

/-- **Runs that start paired stay in step.** They fail alike, or they come to the end of the stretch
that they have in common with configurations that are alike. -/
theorem run_of_paired (ctx : Context) {config config' : Configuration} {c c' : Cursor}
    (h : S.Paired c c') (hc : config'.mapComments shown = config.mapComments shown) :
    AlikeOr shown lenient (fun _ _ => False) (run ctx config c) (run ctx config' c') ∨
      ∃ config₁ config₁' c₁ c₁', S.Beyond c₁ c₁' ∧
        config₁'.mapComments shown = config₁.mapComments shown ∧
        run ctx config c = run ctx config₁ c₁ ∧ run ctx config' c' = run ctx config₁' c₁' := by
  rcases h with h | h
  case inr => exact .inr ⟨config, config', c, c', h, hc, rfl, rfl⟩
  fun_induction run ctx config c generalizing config' c' with
  | case1 config c hw =>
    obtain ⟨w, hw', -⟩ := S.reading h
    rw [hw] at hw'
    cases hw'
  | case2 config c word hw config₁ e c₁ hs =>
    rw [run_of_some ((S.word h).trans hw)]
    have hstep := step_of_within S ctx word h hc
    rw [hs] at hstep
    rcases hs' : step ctx config' word c' with ⟨config₁', r'⟩
    rw [hs'] at hstep
    left
    rcases hstep with ⟨hc₁, hr⟩ | ⟨hl, hd | hd⟩
    · obtain ⟨e', c₁', rfl, he⟩ := hr.of_error
      exact .inl ⟨hc₁, .error he⟩
    · exact .inr ⟨hl, .inl hd⟩
    · obtain ⟨limit, location, c₁', rfl⟩ := hd
      exact .inr ⟨hl, .inr ⟨limit, location, c₁', rfl⟩⟩
  | case3 config c word hw config₁ c₁ hs ih =>
    rw [run_of_some ((S.word h).trans hw)]
    have hstep := step_of_within S ctx word h hc
    rw [hs] at hstep
    rcases hs' : step ctx config' word c' with ⟨config₁', r'⟩
    rw [hs'] at hstep
    rcases hstep with ⟨hc₁, hr⟩ | ⟨hl, hd | hd⟩
    · obtain ⟨c₁', rfl, hp⟩ := hr.of_ok
      rcases hp with hp | hp
      · exact ih hc₁ hp
      · exact .inr ⟨config₁, config₁', c₁, c₁', hp, hc₁, rfl, rfl⟩
    · obtain ⟨limit, location, c₁', hd⟩ := hd
      cases hd
    · obtain ⟨limit, location, c₁', rfl⟩ := hd
      exact .inl (.inr ⟨hl, .inr ⟨limit, location, c₁', rfl⟩⟩)

end

end Configuration

end KeepRules
