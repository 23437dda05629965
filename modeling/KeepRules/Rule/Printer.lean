import KeepRules.Descriptor
import KeepRules.Directive
import KeepRules.Rule
import KeepRules.Text.Cut

/-! # Writing keep rules

A rule is written as lines: its comments, the line with its keyword, and a block with a line for
each member. -/

set_option autoImplicit false

namespace KeepRules

namespace Access

/-- The required modifiers, then the forbidden ones, each with a space in front. -/
def print (a : Access) : String :=
  String.join (a.required.keywords.map (" " ++ ·) ++ a.forbidden.keywords.map (" !" ++ ·))

end Access

namespace Member

/-- A field that lacks its name or its descriptor is any field. -/
def fieldLine (m : Member) : String :=
  let pattern :=
    match m.name, m.descriptor with
    | some name, some d => (Descriptor.externalType? d).getD d ++ " " ++ name
    | _, _ => "<fields>"
  "   " ++ m.access.print ++ " " ++ pattern ++ ";"

/-- A method that lacks its name or a proper descriptor is any method. The result of a constructor
is not written. -/
def methodLine (m : Member) : String :=
  let pattern :=
    match m.name, m.descriptor.bind Descriptor.externalMethod? with
    | some name, some (result, arguments) =>
      let call := name ++ "(" ++ ",".intercalate arguments ++ ")"
      if m.isConstructor && result == "void" then call else result ++ " " ++ call
    | _, _ => "<methods>"
  "   " ++ m.access.print ++ " " ++ pattern ++ ";"

end Member

namespace KeepRule

def commentLines (r : KeepRule) : List String :=
  match r.comments with
  | none => []
  | some comments => (Text.split '\n' comments.toList).map fun line => "#" ++ String.ofList line

/-- The word in front of the class name, after the other modifiers. -/
def kindWord (a : Access) : String :=
  if .accInterface ∈ a.required then "interface"
  else if .accInterface ∈ a.forbidden then "!interface"
  else "class"

def clauseText (keyword : String) (name : Option String) : String :=
  match name with
  | none => ""
  | some name => " " ++ keyword ++ " " ++ ClassName.toExternal name

def headLine (r : KeepRule) : String :=
  let interface := ModifierSet.singleton .accInterface
  let modifiers : Access :=
    { required := r.access.required \ interface, forbidden := r.access.forbidden \ interface }
  r.intent.keyword ++ modifiers.print ++ " " ++ kindWord r.access ++ " " ++
    (r.className.map ClassName.toExternal).getD "*" ++ clauseText "extends" r.extendsName ++
    clauseText "as" r.asName

def lines (r : KeepRule) : List String :=
  r.commentLines ++
    if r.hasMembers then
      [r.headLine ++ " \x7b"] ++ r.fields.map Member.fieldLine ++ r.methods.map Member.methodLine ++
        ["\x7d"]
    else [r.headLine]

end KeepRule

end KeepRules
