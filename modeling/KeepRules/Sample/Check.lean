import KeepRules.Configuration

/-! # Checks on configurations

What samples and tests expect of configurations, with the complaint when it is not so. -/

set_option autoImplicit false

namespace KeepRules.Sample

inductive Complaint where
  | overlapping
  | pathMismatch
  | noRule (className : String)
  deriving DecidableEq

namespace Complaint

def message : Complaint → String
  | overlapping => "Flags both required and forbidden"
  | pathMismatch => "Class path mismatch"
  | noRule className => "No keep rule for " ++ className

end Complaint

/-- No modifier is both required and forbidden. -/
def checkDisjoint (a : Access) : Except Complaint Unit :=
  if a.Disjoint then .ok () else .error .overlapping

/-- The same for every constraint of a configuration. -/
def checkAllDisjoint (c : Configuration) : Except Complaint Unit :=
  c.keep.forM fun rule => rule.constraints.forM checkDisjoint

/-- The first rule for a class, by its internal name. -/
def ruleFor (c : Configuration) (className : String) : Except Complaint KeepRule :=
  match c.keep.find? fun rule => rule.className == some className with
  | some rule => .ok rule
  | none => .error (.noRule className)

/-- The path has exactly these entries. A path that is not given has none. -/
def checkPath (path : Option ClassPath) (expected : ClassPath) : Except Complaint Unit :=
  if path.getD [] = expected then .ok () else .error .pathMismatch

end KeepRules.Sample
