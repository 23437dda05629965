import KeepRules.Environment
import KeepRules.Reader

/-! # Log lines

Events as lines `LEVEL target: message field=value ...`, and the filters that choose among them. A
filter is a list of directives `target=level` separated by commas; of the directives whose target
begins the target of a line, the longest decides. -/

set_option autoImplicit false

namespace KeepRules.Log

inductive Level where
  | error | warn | info | debug | trace
  deriving DecidableEq

namespace Level

/-- Higher ranks tell more. -/
def rank : Level → Nat
  | error => 1
  | warn => 2
  | info => 3
  | debug => 4
  | trace => 5

def name : Level → String
  | error => "ERROR"
  | warn => "WARN"
  | info => "INFO"
  | debug => "DEBUG"
  | trace => "TRACE"

end Level

structure Line where
  level : Level
  target : String
  message : String
  fields : List (String × String)

namespace Line

def render (l : Line) : String :=
  l.level.name ++ " " ++ l.target ++ ": " ++ l.message ++
    String.join (l.fields.map fun f => " " ++ f.1 ++ "=" ++ f.2)

end Line

/-- The target of lines about reading words. -/
def readerTarget : String := "shroud_dsl::lexer::scanner"

/-- The target of lines about directives. -/
def parserTarget : String := "shroud_dsl::parser::parser"

/-- The target of lines about the command line. -/
def commandTarget : String := "trace_config"

def ofEvent : Event → Line
  | .dispatching keyword word =>
    ⟨.trace, parserTarget, "Dispatching directive",
      [("keyword", "\"" ++ keyword ++ "\""), ("word", word)]⟩
  | .entering depth origin =>
    ⟨.debug, readerTarget, "Entering included configuration",
      [("depth", toString depth), ("source", origin.describe)]⟩
  | .leaving depth origin =>
    ⟨.debug, readerTarget, "Leaving included configuration",
      [("depth", toString depth), ("source", origin.describe)]⟩
  | .parsed rules inJars outJars =>
    ⟨.debug, parserTarget, "Parsed configuration",
      [("keep_rules", toString rules), ("in_jars", toString inJars),
       ("out_jars", toString outJars)]⟩

/-! ## Filters -/

/-- The lines of a target that pass: those up to a rank, zero for none. -/
structure Rule where
  target : List Char
  rank : Nat

abbrev Filter := List Rule

/-- A level by its name, in any case, or by its rank. -/
def rank? (word : List Char) : Option Nat :=
  let names : List (String × Nat) :=
    [("off", 0), ("error", 1), ("warn", 2), ("info", 3), ("debug", 4), ("trace", 5),
     ("0", 0), ("1", 1), ("2", 2), ("3", 3), ("4", 4), ("5", 5)]
  names.lookup (String.ofList (word.map Char.toLower))

def isTarget (word : List Char) : Bool :=
  !word.isEmpty && word.all fun c => c.isAlphanum || c == '_' || c == ':' || c == '-'

/-- A level alone is for every target, and a target alone is for every level. -/
def rule? (word : List Char) : Option Rule :=
  match Text.cut '=' word with
  | none =>
    match rank? word with
    | some rank => some ⟨[], rank⟩
    | none => if isTarget word then some ⟨word, 5⟩ else none
  | some (target, level) =>
    if isTarget target then
      if level.isEmpty then some ⟨target, 5⟩ else (rank? level).map (⟨target, ·⟩)
    else none

def filter? (text : String) : Option Filter :=
  ((Text.split ',' text.toList).filter (· ≠ [])).mapM rule?

/-- The filter in place of one that is not set or makes no sense. -/
def defaultFilter : Filter := [⟨"shroud_dsl".toList, 3⟩]

def ofEnvironment (env : Environment) : Filter :=
  ((env.get? "RUST_LOG").bind filter?).getD defaultFilter

namespace Filter

/-- The highest rank that passes for a target. -/
def rankFor (filter : Filter) (target : String) : Nat :=
  let fitting := filter.filter fun r => r.target.isPrefixOf target.toList
  (fitting.foldl
    (fun best r => if best.target.length ≤ r.target.length then r else best) ⟨[], 0⟩).rank

def passes (filter : Filter) (l : Line) : Bool := l.level.rank ≤ filter.rankFor l.target

end Filter

end KeepRules.Log
