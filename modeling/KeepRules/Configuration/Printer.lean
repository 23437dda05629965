import KeepRules.Configuration
import KeepRules.Rule.Printer

/-! # Writing configurations

A configuration is written as directives, each from the start of a line: class paths, attributes,
options, switches, and the keep rules. Switches are written when they are thrown. -/

set_option autoImplicit false

namespace KeepRules

namespace PathEntry

def print (e : PathEntry) : String :=
  match e.filter with
  | none => e.name
  | some filter => e.name ++ "(" ++ filter ++ ")"

end PathEntry

namespace Configuration

def pathLine (separator : Char) (role : PathRole) (path : ClassPath) : String :=
  role.keyword ++ " " ++ separator.toString.intercalate (path.map PathEntry.print)

def attributesLine : List String → String
  | [] => Directive.attributesKeyword ++ " *"
  | names => Directive.attributesKeyword ++ " " ++ ",".intercalate names

def textLine (option : TextOption) (text : String) : String :=
  let argument := if option = .defaultPackage then ClassName.toExternal text else text
  if argument = "" then option.keyword else option.keyword ++ " " ++ argument

def lines (separator : Char) (c : Configuration) : List String :=
  PathRole.all.filterMap (fun role => (c.path role).map (pathLine separator role)) ++
    (c.keepAttributes.map attributesLine).toList ++
    TextOption.all.filterMap (fun option => (c.text option).map (textLine option)) ++
    (Switch.all.filter fun s => c.switch s == s.thrown).map Switch.keyword ++
    c.keep.flatMap KeepRule.lines

/-- The text of a configuration. -/
def print (separator : Char) (c : Configuration) : String :=
  String.join ((c.lines separator).map (· ++ "\n"))

end Configuration

end KeepRules
