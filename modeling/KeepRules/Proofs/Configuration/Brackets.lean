import KeepRules.Proofs.Configuration.Inlining
import KeepRules.Proofs.Configuration.Invariant
import KeepRules.Proofs.Configuration.Replay

/-! # The log of includes

Entering and leaving included sources is recorded. Read from its start, the log is a sequence of
brackets: what is left is what was entered last and not left yet.

* `Event.opened`: the includes that a sequence of events leaves open, if it is well bracketed.
* `Reader.Action`: what a parser has its reader do, and `Reader.performed` what that leads to.
* `Reader.Bracketed`: how the log of a reader is to look. It does so after any actions
  (`bracketed_performed`).
* `Configuration.includes_are_bracketed`: runs. -/

set_option autoImplicit false

namespace KeepRules

open KeepRules.Parser

/-! ## Brackets -/

namespace Event

/-- The open includes, the latest first, each with its depth and its origin, after one more event.
Only the latest can be left. -/
def follow : List (Nat × Origin) → Event → Option (List (Nat × Origin))
  | includes, .entering depth origin => some ((depth, origin) :: includes)
  | latest :: includes, .leaving depth origin =>
    if latest = (depth, origin) then some includes else none
  | [], .leaving _ _ => none
  | includes, .dispatching _ _ => some includes
  | includes, .parsed _ _ _ => some includes

/-- The includes that are open after the events, or nothing if they are not well bracketed. -/
def opened (events : List Event) : Option (List (Nat × Origin)) := events.foldlM follow []

theorem opened_append (events : List Event) (event : Event) :
    opened (events ++ [event]) = (opened events).bind fun includes => follow includes event := by
  rw [opened, List.foldlM_append]
  refine congrArg _ (funext fun includes => ?_)
  cases h : follow includes event <;> simp [h]

/-- The depths of open includes are those from one up, in order. -/
def Stepped (includes : List (Nat × Origin)) : Prop :=
  includes.map Prod.fst = (List.range' 1 includes.length).reverse

end Event

/-- The includes among the sources of a stack, which are all but the lowest. -/
def Frame.includes : List Frame → List (Nat × Origin)
  | f :: g :: lower => (lower.length + 1, f.source.origin) :: includes (g :: lower)
  | _ => []

theorem Frame.length_includes (f : Frame) (lower : List Frame) :
    (Frame.includes (f :: lower)).length = lower.length := by
  induction lower generalizing f with
  | nil => rfl
  | cons g lower ih => rw [includes, List.length_cons, ih, List.length_cons]

theorem Frame.stepped_includes (f : Frame) (lower : List Frame) :
    Event.Stepped (Frame.includes (f :: lower)) := by
  unfold Event.Stepped
  rw [length_includes]
  induction lower generalizing f with
  | nil => rfl
  | cons g lower ih =>
    rw [includes, List.map_cons, ih, List.length_cons, List.range'_concat, List.reverse_append]
    simp [Nat.add_comm]

namespace Reader

/-- What has happened so far, the earliest first. -/
def events (r : Reader) : List Event := r.trail.reverse

/-- The includes that are open, the innermost first. -/
def includes (r : Reader) : List (Nat × Origin) := Frame.includes r.stack

/-- How the log is to look. -/
structure Bracketed (settings : Settings) (r : Reader) : Prop where
  /-- It is well bracketed, and leaves open what the reader has open. -/
  opened : Event.opened r.events = some r.includes
  depth_eq : r.includes.length = r.depth
  /-- At any point, the open includes had the depths from one up, and no depth beyond the limit. -/
  stepped : ∀ events, events <+: r.events → ∃ includes, Event.opened events = some includes ∧
    Event.Stepped includes ∧ includes.length ≤ settings.maxIncludeDepth
  /-- It does not end as the log of a complete configuration does. -/
  unparsed : ∀ rules inJars outJars, Event.parsed rules inJars outJars ∉ r.events

/-! ## Steps -/

section
variable {settings : Settings} {r r' : Reader}

theorem Bracketed.ofSource (root : Source) (settings : Settings) :
    (Reader.ofSource root settings).Bracketed settings := by
  refine ⟨rfl, rfl, fun events h => ?_, fun _ _ _ => List.not_mem_nil⟩
  rw [List.prefix_nil.1 h]
  exact ⟨[], rfl, rfl, Nat.zero_le _⟩

/-- Nothing happens that is recorded. -/
theorem Bracketed.of_eq (h : r.Bracketed settings) (htrail : r'.trail = r.trail)
    (hbelow : r'.below = r.below) (htop : r'.top.source.origin = r.top.source.origin) :
    r'.Bracketed settings := by
  have hincludes : r'.includes = r.includes := by
    unfold includes stack
    rw [hbelow]
    cases r.below with
    | nil => rfl
    | cons f lower => rw [Frame.includes, Frame.includes, htop]
  have hevents : r'.events = r.events := by rw [events, htrail, events]
  have hdepth : r'.depth = r.depth := congrArg List.length hbelow
  obtain ⟨ho, hd, hs, hu⟩ := h
  constructor
  · rwa [hevents, hincludes]
  · rwa [hincludes, hdepth]
  · rwa [hevents]
  · rwa [hevents]

/-- One event is recorded, and the open includes change as it says. -/
theorem Bracketed.event (h : r.Bracketed settings) {event : Event}
    (htrail : r'.trail = event :: r.trail)
    (hfollow : Event.follow r.includes event = some r'.includes)
    (hdepth : r'.depth ≤ settings.maxIncludeDepth)
    (hevent : ∀ rules inJars outJars, event ≠ .parsed rules inJars outJars) :
    r'.Bracketed settings := by
  have hevents : r'.events = r.events ++ [event] := by
    rw [events, htrail, List.reverse_cons]
    rfl
  have hlength : r'.includes.length = r'.depth := Frame.length_includes _ _
  have hopened : Event.opened r'.events = some r'.includes := by
    rw [hevents, Event.opened_append, h.opened]
    exact hfollow
  refine ⟨hopened, hlength, fun events hp => ?_, fun rules inJars outJars hm => ?_⟩
  · rw [hevents] at hp
    rcases List.prefix_concat_iff.1 hp with rfl | hp
    · exact ⟨r'.includes, hevents ▸ hopened, Frame.stepped_includes _ _, hlength ▸ hdepth⟩
    · exact h.stepped events hp
  · rw [hevents] at hm
    rcases List.mem_append.1 hm with hm | hm
    · exact h.unparsed _ _ _ hm
    · exact hevent _ _ _ (List.mem_singleton.1 hm).symm

/-- Sources are left one after the other until one has a word. -/
theorem Bracketed.next (h : r.Bracketed settings) (hr : r.depth ≤ settings.maxIncludeDepth) :
    (left r.next).Bracketed settings := by
  fun_induction Reader.next r with
  | case1 r fault top ht => exact h.of_eq rfl rfl (Frame.origin_of_next_error ht).1
  | case2 r w top ht => exact h.of_eq rfl rfl (Frame.origin_of_next ht)
  | case3 r top ht hb => exact h.of_eq rfl rfl (Frame.origin_of_next ht)
  | case4 r top ht frame below hb ih =>
    have hlower : below.length ≤ settings.maxIncludeDepth := by
      refine Nat.le_trans (Nat.le_succ _) (Nat.le_trans (Nat.le_of_eq ?_) hr)
      rw [depth, hb, List.length_cons]
    refine ih (h.event rfl ?_ hlower (by simp)) hlower
    rw [includes, stack, hb, Frame.includes, Event.follow, Frame.origin_of_next ht, depth, hb,
      List.length_cons, if_pos rfl]
    rfl

theorem Bracketed.includeSource (h : r.Bracketed settings) (hr : r.Limited settings)
    (source : Source) : (left (r.includeSource source)).Bracketed settings := by
  by_cases hd : r.depth < r.limit
  · rw [includeSource_of_lt source hd]
    exact h.event rfl rfl (hr.follows.2 ▸ hd) (by simp)
  · rw [includeSource_of_le source (Nat.not_lt.1 hd)]
    exact h

/-! ## Actions -/

/-- What a parser has its reader do: it makes calls, and it has it record the directives. -/
inductive Action where
  | asked (call : Call)
  | recorded (keyword word : String)

def Action.perform (r : Reader) : Action → Reader
  | asked call => call.perform r
  | recorded keyword word => r.record (.dispatching keyword word)

/-- The reader after the actions. -/
def performed (r : Reader) (actions : List Action) : Reader := actions.foldl Action.perform r

theorem performed_append (r : Reader) (actions : List Action) (action : Action) :
    r.performed (actions ++ [action]) = action.perform (r.performed actions) := by
  rw [performed, List.foldl_append]
  rfl

theorem Limited.action (h : r.Limited settings) (action : Action) :
    (action.perform r).Limited settings := by
  cases action with
  | asked call => exact h.perform call
  | recorded keyword word => exact ⟨h.follows, h.depth_le⟩

theorem Bracketed.action (h : r.Bracketed settings) (hr : r.Limited settings) (action : Action) :
    (action.perform r).Bracketed settings := by
  cases action with
  | asked call =>
    cases call with
    | includeSource source => exact h.includeSource hr source
    | next => exact h.next hr.depth_le
    | takeComments => exact h.of_eq rfl rfl rfl
  | recorded keyword word => exact h.event rfl rfl hr.depth_le (by simp)

theorem bracketed_performed (root : Source) (settings : Settings) (actions : List Action) :
    ((ofSource root settings).performed actions).Bracketed settings := by
  have hrun : ∀ r : Reader, r.Bracketed settings → r.Limited settings →
      (r.performed actions).Bracketed settings := by
    induction actions with
    | nil => exact fun _ h _ => h
    | cons action actions ih => exact fun r h hr => ih _ (h.action hr action) (hr.action action)
  exact hrun _ (.ofSource root settings) ⟨⟨rfl, rfl⟩, Nat.zero_le _⟩

end

end Reader

/-! ## Runs -/

section
variable (ctx : Context) (root : Source) (settings : Settings)

/-- The reader has come here by actions. -/
def Reader.Acted (r : Reader) : Prop :=
  ∃ actions, r = (Reader.ofSource root settings).performed actions

theorem Reader.Acted.action {r : Reader} (h : r.Acted root settings) (action : Action) :
    (action.perform r).Acted root settings := by
  obtain ⟨actions, rfl⟩ := h
  exact ⟨actions ++ [action], (performed_append _ actions action).symm⟩

/-- A read leads to where it can be read on, or where no include is open. -/
theorem ends_of_acted {c : Cursor} (h : c.reader.Acted root settings) :
    Ends (fun c => c.reader.Acted root settings ∧ (c.word = none → c.reader.depth = 0))
      (fun _ c => c.reader.Acted root settings) (advance c) := by
  have hnext : (Reader.left c.reader.next).Acted root settings :=
    h.action root settings (.asked .next)
  have hm := c.reader.moves_next
  unfold advance
  generalize c.reader.next = result at hnext hm
  cases hm with
  | gives => exact ⟨hnext, by simp⟩
  | ends hp _ => exact ⟨hnext, fun _ => congrArg List.length (List.cons.inj hp.after).2⟩
  | fails => exact hnext

/-- Whatever a parser does comes down to actions of its reader. -/
def acting : Invariant ctx where
  Holds c := c.reader.Acted root settings ∧ (c.word = none → c.reader.depth = 0)
  Fails _ c := c.reader.Acted root settings
  rejects _ h := h.1
  unopened _ _ h := h.1
  reads _ h := ends_of_acted root settings h.1
  includes {c c₁ _ source} h _ he := by
    refine ends_of_acted root settings ?_
    have hcall := h.1.action root settings (.asked (.includeSource source))
    unfold enter at he
    have hleft : c₁.reader = Reader.left (c.reader.includeSource source) := by
      split at he
      · next hi =>
        cases he
        rw [hi]
        rfl
      · cases he
    exact hleft ▸ hcall
  takes h := ⟨h.1.action root settings (.asked .takeComments), h.2⟩
  records keyword word h := ⟨h.1.action root settings (.recorded keyword word), h.2⟩

end

namespace Configuration

/-- **The log of includes is well bracketed.** A run comes down to actions of the reader. After each
of them, the log is well bracketed and leaves open what the reader has open, at the depths from one
up. A run that succeeds has left all it has entered before it records, once and last, that the
configuration is complete; a run that fails does not record this. -/
theorem includes_are_bracketed (ctx : Context) {settings : Settings} {root : Source} {c : Cursor}
    (h : Cursor.ofReader (.ofSource root settings) = .ok c) (config : Configuration) :
    ∃ actions : List Reader.Action,
      (∀ earlier, earlier <+: actions →
        ((Reader.ofSource root settings).performed earlier).Bracketed settings) ∧
      match run ctx config c with
      | (config', .ok () c') =>
        ∃ events, events = ((Reader.ofSource root settings).performed actions).events ∧
          Event.opened events = some [] ∧
          c'.reader.events = events ++ [.parsed config'.keep.length
            (config'.inJars.getD []).length (config'.outJars.getD []).length] ∧
          ∀ rules inJars outJars, Event.parsed rules inJars outJars ∉ events
      | (_, .error _ c') =>
        c'.reader = (Reader.ofSource root settings).performed actions ∧
          ∀ rules inJars outJars, Event.parsed rules inJars outJars ∉ c'.reader.events := by
  have hc : (acting ctx root settings).Holds c := by
    have hroot : (Reader.ofSource root settings).Acted root settings := ⟨[], rfl⟩
    have hfirst : advance ⟨.ofSource root settings, none⟩ = .ok () c :=
      Cursor.advance_eq_ok.2 (Cursor.next_of_ofReader h)
    have hend := @ends_of_acted root settings ⟨.ofSource root settings, none⟩ hroot
    rw [hfirst] at hend
    exact hend
  have hbracketed := Reader.bracketed_performed root settings
  cases hrun : run ctx config c with
  | mk config' r =>
    cases r with
    | error e c' =>
      obtain ⟨actions, hactions⟩ := (acting ctx root settings).fails_of_run hc hrun
      refine ⟨actions, fun earlier _ => hbracketed earlier, hactions, ?_⟩
      rw [hactions]
      exact (hbracketed actions).unparsed
    | ok u c' =>
      obtain ⟨c₁, ⟨⟨actions, hactions⟩, hdepth⟩, hw, hc'⟩ :=
        (acting ctx root settings).holds_of_run hc hrun
      have hb := hbracketed actions
      have hnil : ((Reader.ofSource root settings).performed actions).includes = [] := by
        rw [← List.length_eq_zero_iff, hb.depth_eq, ← hactions]
        exact hdepth hw
      refine ⟨actions, fun earlier _ => hbracketed earlier, _, rfl, hnil ▸ hb.opened, ?_,
        hb.unparsed⟩
      rw [hc', hactions]
      exact List.reverse_cons

/-- One file is included, and it has been left before the configuration is complete. -/
theorem includes_are_bracketed_verbose : ∃ c c' events,
    Cursor.ofReader (.ofSource (.ofText "m" "@n") {}) = .ok c ∧
      run (fileContext "n" "-verbose") {} c = ({ verbose := true }, .ok () c') ∧
      Event.opened events = some [] ∧ c'.reader.events = events ++ [.parsed 0 0 0] := by
  have hlook : Directive.lookup? "@" = some ("@", .includeFile) := by decide
  have hlook' : Directive.lookup? "-verbose" = some ("-verbose", .switch .verbose) := by decide
  obtain ⟨c, hc, hp, hd⟩ := Cursor.poised_of_text {} "m" "@n"
  have hp : c.Poised {} ["@", "n"] := hp
  have hopen : (fileContext "n" "-verbose").host.openFile "n" =
      .ok (.file "-verbose".toUTF8) := rfl
  obtain ⟨c', hrun⟩ : ∃ c', run (fileContext "n" "-verbose") {} c =
      ({ verbose := true }, .ok () c') := by
    obtain ⟨c₁, hp₁, hrun₁⟩ :=
      run_of_include_below hlook hp (by decide) (by decide) hopen (hd ▸ by decide) {}
    have hp₁ : c₁.Poised {} ["-verbose"] := hp₁
    obtain ⟨c₂, hrun₂⟩ := run_of_last hp₁ hlook' (by simp) .switch {}
    exact ⟨c₂, hrun₁.trans hrun₂⟩
  obtain ⟨actions, -, hend⟩ := includes_are_bracketed (fileContext "n" "-verbose") hc {}
  rw [hrun] at hend
  obtain ⟨events, -, hopened, hevents, -⟩ := hend
  exact ⟨c, c', events, hc, hrun, hopened, hevents⟩

end Configuration

end KeepRules
