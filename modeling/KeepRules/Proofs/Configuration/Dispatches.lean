import KeepRules.Proofs.Configuration.Texts

/-! # The log of a run

A run that succeeds carries out one directive after the other. Each is found by a word, takes
further words as its arguments, and makes one edit; which edit that is depends on its arguments and
its comments, and not on the configuration.

* `Edit`: what a directive that succeeds does to a configuration.
* `Directive.Makes`: the arguments with which a directive makes an edit.
* `Dispatch`, `Performs`: a directive that was carried out, and the cursors before and after it
  (`performs_of_step`).
* `Logs`: directives carried out one after the other. Every run that succeeds has a log
  (`logs_of_run`), and the log lists just those directives that the reader recorded
  (`Logs.dispatches`). `run_of_words` is the start of a run over given words, and `run_of_last` its
  last step. -/

set_option autoImplicit false

namespace KeepRules

open KeepRules.Parser

/-! ## Edits -/

/-- What a directive about attributes asks for. -/
inductive AttributeRequest where
  | all
  | names (list : List String)
  deriving DecidableEq

namespace AttributeRequest

/-- How a request is written. A `*` stands for all attributes only if it comes first. -/
inductive Written : AttributeRequest → List String → Prop where
  | nothing : Written all []
  | star : Written all ["*"]
  | list {n : String} {ns : List String} :
      n ≠ "*" → (∀ m ∈ n :: ns, Directive.starts m = false) →
      Written (names (n :: ns)) ((n :: ns).intersperse ",")

/-- The names to retain after the request, given those before; no names stand for all attributes. -/
def onto (before : List String) : AttributeRequest → List String
  | all => []
  | names list => before ++ list

end AttributeRequest

/-- What a directive that succeeds does to a configuration. -/
inductive Edit where
  | nothing
  | entries (role : PathRole) (added : ClassPath)
  | rule (r : KeepRule)
  | attributes (request : AttributeRequest)
  | text (o : TextOption) (value : String)
  | switch (s : Switch)
  deriving DecidableEq

namespace Edit

def on (config : Configuration) : Edit → Configuration
  | nothing => config
  | entries role added => config.setPath role (some ((config.path role).getD [] ++ added))
  | rule r => config.addRule r
  | attributes request =>
    { config with keepAttributes := some (request.onto (config.keepAttributes.getD [])) }
  | text o value => config.setText o (some value)
  | switch s => config.setSwitch s s.thrown

end Edit

/-- With the words as its arguments and with the comments, the directive makes the edit. -/
inductive Directive.Makes (ctx : Context) (separator : Char) (comments : Option String) :
    Directive → List String → Edit → Prop where
  | inclusion {w : String} : Makes ctx separator comments .includeFile [w] .nothing
  | classPath {role : PathRole} {es : List EntryPhrase} {entries : ClassPath} :
      ClassPath.ValidPhrases separator es → ClassPath.Say ctx es entries →
      Makes ctx separator comments (.classPath role) (ClassPath.phraseWords separator es)
        (.entries role entries)
  | keep {intent : KeepIntent} {p : RulePhrase} :
      p.Valid → Makes ctx separator comments (.keep intent) p.words (.rule (p.rule intent comments))
  | attributes {request : AttributeRequest} {ws : List String} :
      request.Written ws → Makes ctx separator comments .keepAttributes ws (.attributes request)
  | bare {o : TextOption} : Makes ctx separator comments (.text o) [] (.text o (o.value ""))
  | text {o : TextOption} {w : String} : Directive.starts w = false →
      Makes ctx separator comments (.text o) [w] (.text o (o.value w))
  | switch {s : Switch} : Makes ctx separator comments (.switch s) [] (.switch s)

namespace Configuration

/-! ## One directive -/

/-- Applied at `c`, the directive takes the arguments, makes the edit and ends at `c'`. An include
goes on in another source after its argument; all other directives pass their arguments. -/
structure Completes (ctx : Context) (comments : Option String) (d : Directive) (c : Cursor)
    (arguments : List String) (edit : Edit) (c' : Cursor) : Prop where
  makes : d.Makes ctx c.reader.separator comments arguments edit
  passes : d ≠ .includeFile → c.Passes arguments c'
  includes : d = .includeFile → ∃ source c₁ c₂, c.Reads arguments c₁ ∧
    enter source c₁ = .ok () c₂ ∧ advance c₂ = .ok () c'

theorem completes_of_apply {ctx : Context} {comments : Option String}
    {config config' : Configuration} {d : Directive} {c c' : Cursor}
    (h : apply ctx comments config d c = (config', .ok () c')) :
    ∃ arguments edit, Completes ctx comments d c arguments edit c' ∧ config' = edit.on config := by
  cases d with
  | includeFile =>
    obtain ⟨u, hr, rfl⟩ := settle_eq_ok h
    obtain ⟨w, source, c₁, c₂, hread, henter, hadvance⟩ := includeFile_eq_ok hr
    exact ⟨[w], .nothing,
      ⟨.inclusion, nofun, fun _ => ⟨source, c₁, c₂, hread, henter, hadvance⟩⟩, rfl⟩
  | classPath role =>
    obtain ⟨p, hr, rfl⟩ := settle_eq_ok h
    obtain ⟨es, entries, hv, hs, hp, -, rfl⟩ := ClassPath.parser_iff.1 hr
    exact ⟨_, _, ⟨.classPath hv hs, fun _ => hp, nofun⟩, rfl⟩
  | keep intent =>
    obtain ⟨rule, hr, rfl⟩ := settle_eq_ok h
    obtain ⟨p, hv, hp, -, rfl⟩ := KeepRule.parser_iff.1 hr
    exact ⟨_, _, ⟨.keep hv, fun _ => hp, nofun⟩, rfl⟩
  | keepAttributes =>
    obtain ⟨names, hr, rfl⟩ := settle_eq_ok h
    rcases attributes_iff.1 hr with ⟨hp, -, rfl⟩ | ⟨hp, rfl⟩ | ⟨n, ns, hns, hne, hp, -, rfl⟩
    · exact ⟨_, _, ⟨.attributes .nothing, fun _ => hp, nofun⟩, rfl⟩
    · exact ⟨_, _, ⟨.attributes .star, fun _ => hp, nofun⟩, rfl⟩
    · exact ⟨_, _, ⟨.attributes (.list hne hns), fun _ => hp, nofun⟩, rfl⟩
  | text o =>
    obtain ⟨w, hr, rfl⟩ := settle_eq_ok h
    rcases argument_iff.1 hr with ⟨hp, -, rfl⟩ | ⟨hp, hs⟩
    · exact ⟨_, _, ⟨.bare, fun _ => hp, nofun⟩, rfl⟩
    · exact ⟨_, _, ⟨.text hs, fun _ => hp, nofun⟩, rfl⟩
  | switch s =>
    obtain ⟨u, hr, rfl⟩ := settle_eq_ok h
    exact ⟨_, _, ⟨.switch, fun _ => Cursor.Passes.nil_iff.2 hr, nofun⟩, rfl⟩

/-- A directive makes its edit if the next directive, or nothing, follows its arguments. -/
theorem apply_of_makes {ctx : Context} {comments : Option String} {d : Directive} {c c' : Cursor}
    {arguments : List String} {edit : Edit} (hd : d ≠ .includeFile)
    (h : d.Makes ctx c.reader.separator comments arguments edit) (hp : c.Passes arguments c')
    (hend : c'.atEnd = true) (config : Configuration) :
    apply ctx comments config d c = (edit.on config, .ok () c') := by
  cases h with
  | inclusion => exact absurd rfl hd
  | classPath hv hs => rw [apply, ClassPath.parser_iff.2 ⟨_, _, hv, hs, hp, hend, rfl⟩]; rfl
  | keep hv => rw [apply, KeepRule.parser_iff.2 ⟨_, hv, hp, fun _ => hend, rfl⟩]; rfl
  | attributes hw =>
    cases hw with
    | nothing => rw [apply, attributes_iff.2 (.inl ⟨hp, hend, rfl⟩)]; rfl
    | star => rw [apply, attributes_iff.2 (.inr (.inl ⟨hp, rfl⟩))]; rfl
    | list hne hns =>
      rw [apply, attributes_iff.2 (.inr (.inr ⟨_, _, hns, hne, hp, hend, rfl⟩))]; rfl
  | bare => rw [apply, argument_iff.2 (.inl ⟨hp, hend, rfl⟩)]; rfl
  | text hs => rw [apply, argument_iff.2 (.inr ⟨hp, hs⟩)]; rfl
  | switch => rw [apply, Cursor.Passes.nil_iff.1 hp]; rfl

/-- A directive that was carried out: the word it was found by, the keyword that this stands for,
and what the directive took and did. -/
structure Dispatch where
  word : String
  keyword : String
  directive : Directive
  arguments : List String
  edit : Edit
  deriving DecidableEq

/-- The directive at the lookahead of `c` is carried out, and ends at `c'`. -/
structure Performs (ctx : Context) (c : Cursor) (d : Dispatch) (c' : Cursor) : Prop where
  word : c.word = some d.word
  found : Directive.lookup? d.word = some (d.keyword, d.directive)
  completes : Completes ctx c.reader.top.comments d.directive (dispatched c d.keyword d.word)
    d.arguments d.edit c'

theorem performs_of_step {ctx : Context} {config config' : Configuration} {word : String}
    {c c' : Cursor} (hw : c.word = some word) (h : step ctx config word c = (config', .ok () c')) :
    ∃ d, Performs ctx c d c' ∧ config' = d.edit.on config := by
  cases hl : Directive.lookup? word with
  | none =>
    simp only [step, hl] at h
    cases h
  | some p =>
    obtain ⟨keyword, directive⟩ := p
    rw [step_eq_of_lookup? hl] at h
    obtain ⟨arguments, edit, hc, rfl⟩ := completes_of_apply h
    exact ⟨⟨word, keyword, directive, arguments, edit⟩, ⟨hw, hl, hc⟩, rfl⟩

end Configuration

/-! ## What the reader records -/

/-- The keyword and the word of a directive whose start is recorded. -/
def Event.dispatch? : Event → Option (String × String)
  | .dispatching keyword word => some (keyword, word)
  | _ => none

namespace Reader

/-- The directives recorded so far, the earliest first. -/
def dispatches (r : Reader) : List (String × String) := r.trail.reverse.filterMap Event.dispatch?

theorem dispatches_record (r : Reader) (event : Event) :
    (r.record event).dispatches = r.dispatches ++ event.dispatch?.toList := by
  cases h : event.dispatch? <;> simp [dispatches, record, h]

theorem dispatches_of_next {r r' : Reader} {word : Option String} (h : r.next = .ok word r') :
    r'.dispatches = r.dispatches := by
  fun_induction next r with
  | case1 => cases h
  | case2 => cases h; rfl
  | case3 => cases h; rfl
  | case4 r top ht frame below hb ih =>
    rw [ih h]
    simp [dispatches, Event.dispatch?]

end Reader

namespace Cursor

theorem dispatches_of_advance {c c' : Cursor} (h : advance c = .ok () c') :
    c'.reader.dispatches = c.reader.dispatches :=
  Reader.dispatches_of_next (advance_eq_ok.1 h)

theorem Reads.dispatches {c c' : Cursor} {ws : List String} (h : c.Reads ws c') :
    c'.reader.dispatches = c.reader.dispatches := by
  induction h with
  | nil => rfl
  | cons ha _ _ ih => exact ih.trans (dispatches_of_advance ha)

theorem Passes.dispatches {c c' : Cursor} {ws : List String} (h : c.Passes ws c') :
    c'.reader.dispatches = c.reader.dispatches := by
  obtain ⟨m, hm, ha⟩ := h
  exact (dispatches_of_advance ha).trans hm.dispatches

theorem dispatches_of_enter {source : Source} {c c' : Cursor} (h : enter source c = .ok () c') :
    c'.reader.dispatches = c.reader.dispatches := by
  unfold enter Reader.includeSource at h
  split at h
  · next hi =>
    cases h
    split at hi <;> cases hi
    simp [Reader.dispatches, Event.dispatch?]
  · cases h

end Cursor

namespace Configuration

theorem Completes.dispatches {ctx : Context} {comments : Option String} {d : Directive}
    {c c' : Cursor} {arguments : List String} {edit : Edit}
    (h : Completes ctx comments d c arguments edit c') :
    c'.reader.dispatches = c.reader.dispatches := by
  by_cases hd : d = .includeFile
  · obtain ⟨source, c₁, c₂, hread, henter, hadvance⟩ := h.includes hd
    rw [Cursor.dispatches_of_advance hadvance, Cursor.dispatches_of_enter henter, hread.dispatches]
  · exact (h.passes hd).dispatches

theorem Performs.dispatches {ctx : Context} {c c' : Cursor} {d : Dispatch}
    (h : Performs ctx c d c') :
    c'.reader.dispatches = c.reader.dispatches ++ [(d.keyword, d.word)] := by
  rw [h.completes.dispatches, dispatched, Reader.dispatches_record]
  rfl

/-! ## Runs -/

/-- The directives are carried out one after the other. -/
inductive Logs (ctx : Context) : Cursor → List Dispatch → Cursor → Prop where
  | nil {c : Cursor} : Logs ctx c [] c
  | cons {c c₁ c' : Cursor} {d : Dispatch} {log : List Dispatch} :
      Performs ctx c d c₁ → Logs ctx c₁ log c' → Logs ctx c (d :: log) c'

/-- The configuration after the directives. -/
def edited (config : Configuration) (log : List Dispatch) : Configuration :=
  log.foldl (fun config d => d.edit.on config) config

theorem edited_cons (config : Configuration) (d : Dispatch) (log : List Dispatch) :
    config.edited (d :: log) = (d.edit.on config).edited log := rfl

theorem Logs.performs {ctx : Context} {c c' : Cursor} {log : List Dispatch}
    (h : Logs ctx c log c') : ∀ d ∈ log, ∃ c₁ c₂, Performs ctx c₁ d c₂ := by
  induction h with
  | nil => simp
  | cons hp _ ih =>
    intro d hd
    rcases List.mem_cons.1 hd with rfl | hd
    · exact ⟨_, _, hp⟩
    · exact ih d hd

/-- The log lists what the reader recorded. -/
theorem Logs.dispatches {ctx : Context} {c c' : Cursor} {log : List Dispatch}
    (h : Logs ctx c log c') :
    c'.reader.dispatches = c.reader.dispatches ++ log.map fun d => (d.keyword, d.word) := by
  induction h with
  | nil => simp
  | cons hp _ ih => rw [ih, hp.dispatches, List.append_assoc, List.map_cons, List.singleton_append]

/-- A run that succeeds carries out directives until no word is left. -/
theorem logs_of_run {ctx : Context} {config config' : Configuration} {c c' : Cursor}
    (h : run ctx config c = (config', .ok () c')) :
    ∃ log last, Logs ctx c log last ∧ last.word = none ∧ config' = config.edited log ∧
      c'.reader.dispatches = last.reader.dispatches := by
  fun_induction run ctx config c with
  | case1 config c hw =>
    cases h
    refine ⟨[], c, .nil, hw, rfl, ?_⟩
    rw [Reader.dispatches_record]
    exact List.append_nil _
  | case2 => cases h
  | case3 config c word hw config₁ c₁ hs ih =>
    obtain ⟨d, hp, rfl⟩ := performs_of_step hw hs
    obtain ⟨log, last, hlogs, hlast, rfl, htrail⟩ := ih h
    exact ⟨d :: log, last, .cons hp hlogs, hlast, rfl, htrail⟩

/-- A directive whose arguments come next is carried out, and the run goes on after them. -/
theorem run_of_makes {ctx : Context} {c c' : Cursor} {word keyword : String} {d : Directive}
    {arguments : List String} {edit : Edit} (hw : c.word = some word)
    (hl : Directive.lookup? word = some (keyword, d)) (hd : d ≠ .includeFile)
    (hm : d.Makes ctx c.reader.separator c.reader.top.comments arguments edit)
    (hp : (dispatched c keyword word).Passes arguments c') (hend : c'.atEnd = true)
    (config : Configuration) :
    c'.reader.dispatches = c.reader.dispatches ++ [(keyword, word)] ∧
      run ctx config c = run ctx (edit.on config) c' := by
  have hm : d.Makes ctx (dispatched c keyword word).reader.separator c.reader.top.comments arguments
      edit := hm
  refine ⟨?_, by rw [run_of_some hw, step_eq_of_lookup? hl, apply_of_makes hd hm hp hend]⟩
  rw [hp.dispatches, dispatched, Reader.dispatches_record]
  rfl

/-- The first of the words ahead are those of a directive. -/
theorem run_of_words {ctx : Context} {settings : Settings} {c : Cursor} {word keyword : String}
    {d : Directive} {arguments rest : List String} {edit : Edit}
    (hc : c.Poised settings (word :: (arguments ++ rest)))
    (hl : Directive.lookup? word = some (keyword, d)) (hd : d ≠ .includeFile)
    (hm : d.Makes ctx settings.pathSeparator c.reader.top.comments arguments edit)
    (hrest : rest.head?.all Directive.starts = true) (config : Configuration) :
    ∃ c', c'.Poised settings rest ∧ run ctx config c = run ctx (edit.on config) c' := by
  obtain ⟨c', hp, hc'⟩ := (hc.dispatched keyword word).passes
  rw [← hc.2.1] at hm
  have hend : c'.atEnd = true := hc'.1.atEnd.trans hrest
  exact ⟨c', hc', (run_of_makes hc.1.word hl hd hm hp hend config).2⟩

/-- All words ahead are those of one directive. -/
theorem run_of_last {ctx : Context} {settings : Settings} {c : Cursor} {word keyword : String}
    {d : Directive} {arguments : List String} {edit : Edit}
    (hc : c.Poised settings (word :: arguments))
    (hl : Directive.lookup? word = some (keyword, d)) (hd : d ≠ .includeFile)
    (hm : d.Makes ctx settings.pathSeparator c.reader.top.comments arguments edit)
    (config : Configuration) : ∃ c', run ctx config c = (edit.on config, .ok () c') := by
  rw [← List.append_nil arguments] at hc
  obtain ⟨c', hc', hrun⟩ := run_of_words hc hl hd hm rfl config
  exact ⟨_, hrun.trans (run_of_none hc'.1.word)⟩

end Configuration

end KeepRules
