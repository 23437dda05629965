import KeepRules.Access
import KeepRules.Property
import KeepRules.Source

/-! # Parse errors

The causes for which reading a configuration stops, with their wording. A configuration is either
rejected at a word, or something that it is read from cannot be opened or read. -/

set_option autoImplicit false

namespace KeepRules

/-- A word in a line, or the end of what has been read. -/
structure Location where
  word : Option String
  line : Nat
  origin : Origin
  deriving DecidableEq

namespace Location

def describe (l : Location) : String :=
  match l.word with
  | some word => "'" ++ word ++ "' in " ++ l.origin.describeLine l.line
  | none => "end of " ++ l.origin.describeLine l.line

end Location

/-- What should have stood at the place of an error. -/
inductive Expected where
  | fileName | pathEntry | pathSeparator (separator : Char)
  | attributeName | attributeSeparator
  | filter | filterSeparator
  | argument | argumentType | argumentSeparator
  | classKeyword | className | newClassName
  | member | memberType | memberName | memberEnd | separator
  deriving DecidableEq

namespace Expected

def describe : Expected → String
  | fileName => "configuration file name"
  | pathEntry => "jar or directory name"
  | pathSeparator s => "class path separator '" ++ s.toString ++ "'"
  | attributeName => "attribute name"
  | attributeSeparator => "attribute name separator ','"
  | filter => "argument"
  | filterSeparator => "separating ','"
  | argument => "argument"
  | argumentType => "argument type"
  | argumentSeparator => "separating ',' or closing ')'"
  | classKeyword => "keyword 'class' or 'interface'"
  | className => "class name or interface name"
  | newClassName => "new class name"
  | member => "class member description or closing '\x7d'"
  | memberType => "class member type"
  | memberName => "class member name"
  | memberEnd => "opening '(' or separator ';'"
  | separator => "separator ';'"

end Expected

/-- Why a configuration is rejected. -/
inductive Reason where
  | unknownDirective
  | expected (what : Expected)
  | expectedOpening
  | expectedTypeAndName (type : String)
  | unexpectedKeyword
  | modifier (error : ModifierError)
  | property (error : PropertyError)
  | nestedTooDeep (limit : Nat)
  deriving DecidableEq

namespace Reason

def message : Reason → String
  | unknownDirective => "Unknown configuration"
  | expected what => "Expecting " ++ what.describe ++ " before"
  | expectedOpening => "Expecting opening '\x7b' at"
  | expectedTypeAndName type => "Expecting type and name instead of just '" ++ type ++ "' before"
  | unexpectedKeyword => "Unexpected keyword"
  | modifier error => error.message ++ " before"
  | property error => error.message ++ " in"
  | nestedTooDeep limit => "Include nesting deeper than " ++ toString limit ++ " levels at"

end Reason

inductive ParseError where
  | rejected (reason : Reason) (location : Location)
  | unreadable (origin : Origin) (fault : IoFault)
  deriving DecidableEq

namespace ParseError

def message : ParseError → String
  | rejected reason location => reason.message ++ " " ++ location.describe
  | unreadable origin fault => "Can't read " ++ origin.describe ++ ": " ++ fault.message

/-- Where the error was found. -/
def place : ParseError → String
  | rejected _ location => location.describe
  | unreadable origin _ => origin.describe

end ParseError

namespace Source

def ofFile (host : Host) (name : String) : Except ParseError Source :=
  match host.openFile name with
  | .ok content => .ok (ofContent name content)
  | .error fault => .error (.unreadable (.file name) fault)

end Source

end KeepRules
