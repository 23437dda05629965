import KeepRules.ClassPath
import KeepRules.Rule

/-! # Configurations

Everything that a configuration can set. The class paths, the options with an argument and the
switches are addressed by `PathRole`, `TextOption` and `Switch`, so that a directive and the field
it sets are the same thing. -/

set_option autoImplicit false

namespace KeepRules

inductive PathRole where
  | inJars | outJars | libraryJars | resourceJars
  deriving DecidableEq

inductive TextOption where
  | renameSourceFileAttribute | printSeeds | printUsage | printMapping | applyMapping | dump
  | defaultPackage
  deriving DecidableEq

inductive Switch where
  | verbose | ignoreWarnings | warn | note | shrink | obfuscate | useMixedCaseClassNames
  | overloadAggressively | skipNonPublicLibraryClasses
  deriving DecidableEq

structure Configuration where
  inJars : Option ClassPath := none
  outJars : Option ClassPath := none
  libraryJars : Option ClassPath := none
  resourceJars : Option ClassPath := none
  keep : List KeepRule := []
  /-- The attributes to retain; the empty list retains all of them. -/
  keepAttributes : Option (List String) := none
  /-- An option given without its argument holds the empty text. -/
  newSourceFileAttribute : Option String := none
  printSeeds : Option String := none
  printUsage : Option String := none
  printMapping : Option String := none
  applyMapping : Option String := none
  dump : Option String := none
  /-- An internal package name. -/
  defaultPackage : Option String := none
  verbose : Bool := false
  ignoreWarnings : Bool := false
  warn : Bool := true
  note : Bool := true
  shrink : Bool := true
  obfuscate : Bool := true
  useMixedCaseClassNames : Bool := true
  overloadAggressively : Bool := false
  skipNonPublicLibraryClasses : Bool := true
  deriving DecidableEq

namespace PathRole

/-- In the order in which they are printed. -/
def all : List PathRole := [inJars, outJars, libraryJars, resourceJars]

end PathRole

namespace TextOption

/-- In the order in which they are printed. -/
def all : List TextOption :=
  [renameSourceFileAttribute, printSeeds, printUsage, printMapping, applyMapping, dump,
   defaultPackage]

end TextOption

namespace Switch

/-- In the order in which they are printed. -/
def all : List Switch :=
  [verbose, ignoreWarnings, warn, note, shrink, obfuscate, useMixedCaseClassNames,
   overloadAggressively, skipNonPublicLibraryClasses]

/-- The value that the switch's directive gives it, opposite to the value it has without. -/
def thrown : Switch → Bool
  | verbose | ignoreWarnings | overloadAggressively => true
  | warn | note | shrink | obfuscate | useMixedCaseClassNames | skipNonPublicLibraryClasses => false

end Switch

namespace Configuration

def path (c : Configuration) : PathRole → Option ClassPath
  | .inJars => c.inJars
  | .outJars => c.outJars
  | .libraryJars => c.libraryJars
  | .resourceJars => c.resourceJars

def setPath (c : Configuration) (role : PathRole) (p : Option ClassPath) : Configuration :=
  match role with
  | .inJars => { c with inJars := p }
  | .outJars => { c with outJars := p }
  | .libraryJars => { c with libraryJars := p }
  | .resourceJars => { c with resourceJars := p }

def text (c : Configuration) : TextOption → Option String
  | .renameSourceFileAttribute => c.newSourceFileAttribute
  | .printSeeds => c.printSeeds
  | .printUsage => c.printUsage
  | .printMapping => c.printMapping
  | .applyMapping => c.applyMapping
  | .dump => c.dump
  | .defaultPackage => c.defaultPackage

def setText (c : Configuration) (option : TextOption) (t : Option String) : Configuration :=
  match option with
  | .renameSourceFileAttribute => { c with newSourceFileAttribute := t }
  | .printSeeds => { c with printSeeds := t }
  | .printUsage => { c with printUsage := t }
  | .printMapping => { c with printMapping := t }
  | .applyMapping => { c with applyMapping := t }
  | .dump => { c with dump := t }
  | .defaultPackage => { c with defaultPackage := t }

def switch (c : Configuration) : Switch → Bool
  | .verbose => c.verbose
  | .ignoreWarnings => c.ignoreWarnings
  | .warn => c.warn
  | .note => c.note
  | .shrink => c.shrink
  | .obfuscate => c.obfuscate
  | .useMixedCaseClassNames => c.useMixedCaseClassNames
  | .overloadAggressively => c.overloadAggressively
  | .skipNonPublicLibraryClasses => c.skipNonPublicLibraryClasses

def setSwitch (c : Configuration) (s : Switch) (b : Bool) : Configuration :=
  match s with
  | .verbose => { c with verbose := b }
  | .ignoreWarnings => { c with ignoreWarnings := b }
  | .warn => { c with warn := b }
  | .note => { c with note := b }
  | .shrink => { c with shrink := b }
  | .obfuscate => { c with obfuscate := b }
  | .useMixedCaseClassNames => { c with useMixedCaseClassNames := b }
  | .overloadAggressively => { c with overloadAggressively := b }
  | .skipNonPublicLibraryClasses => { c with skipNonPublicLibraryClasses := b }

def addRule (c : Configuration) (r : KeepRule) : Configuration := { c with keep := c.keep ++ [r] }

/-- Whether the optional attribute is to be retained. -/
def retainsAttribute (c : Configuration) (name : String) : Bool :=
  match c.keepAttributes with
  | none => false
  | some [] => true
  | some names => names.contains name

@[simp] theorem path_setPath (c : Configuration) (r s : PathRole) (p : Option ClassPath) :
    (c.setPath r p).path s = if r = s then p else c.path s := by
  cases r <;> cases s <;> rfl

@[simp] theorem text_setText (c : Configuration) (o q : TextOption) (t : Option String) :
    (c.setText o t).text q = if o = q then t else c.text q := by
  cases o <;> cases q <;> rfl

@[simp] theorem switch_setSwitch (c : Configuration) (s t : Switch) (b : Bool) :
    (c.setSwitch s b).switch t = if s = t then b else c.switch t := by
  cases s <;> cases t <;> rfl

end Configuration

end KeepRules
