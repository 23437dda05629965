import KeepRules.Configuration

/-! # Directives

What a top-level word asks for. A word stands for the first keyword of the table that it begins,
so that abbreviations are accepted and `-keep` comes before its longer variants. -/

set_option autoImplicit false

namespace KeepRules

inductive Directive where
  | includeFile
  | classPath (role : PathRole)
  | keep (intent : KeepIntent)
  | keepAttributes
  | text (option : TextOption)
  | switch (s : Switch)
  deriving DecidableEq

namespace PathRole

def keyword : PathRole → String
  | inJars => "-injars"
  | outJars => "-outjars"
  | libraryJars => "-libraryjars"
  | resourceJars => "-resourcejars"

end PathRole

namespace KeepIntent

/-- The keyword of a rule with this intent. Conditional marking comes first: an intent with both
kinds of marking has no keyword of its own. -/
def keyword (i : KeepIntent) : String :=
  match i.conditionally, i.markClasses, i.onlyNames with
  | true, _, false => "-keepclasseswithmembers"
  | true, _, true => "-keepclasseswithmembernames"
  | false, true, false => "-keep"
  | false, true, true => "-keepnames"
  | false, false, false => "-keepclassmembers"
  | false, false, true => "-keepclassmembernames"

end KeepIntent

namespace TextOption

def keyword : TextOption → String
  | renameSourceFileAttribute => "-renamesourcefileattribute"
  | printSeeds => "-printseeds"
  | printUsage => "-printusage"
  | printMapping => "-printmapping"
  | applyMapping => "-applymapping"
  | dump => "-dump"
  | defaultPackage => "-defaultpackage"

end TextOption

namespace Switch

def keyword : Switch → String
  | verbose => "-verbose"
  | ignoreWarnings => "-ignorewarnings"
  | warn => "-dontwarn"
  | note => "-dontnote"
  | shrink => "-dontshrink"
  | obfuscate => "-dontobfuscate"
  | useMixedCaseClassNames => "-dontusemixedcaseclassnames"
  | overloadAggressively => "-overloadaggressively"
  | skipNonPublicLibraryClasses => "-dontskipnonpubliclibraryclasses"

end Switch

namespace Directive

def attributesKeyword : String := "-keepattributes"

def ofPath (role : PathRole) : String × Directive := (role.keyword, classPath role)

def ofIntent (intent : KeepIntent) : String × Directive := (intent.keyword, keep intent)

def ofText (option : TextOption) : String × Directive := (option.keyword, text option)

def ofSwitch (s : Switch) : String × Directive := (s.keyword, switch s)

/-- The keywords in the order in which they are tried. -/
def table : List (String × Directive) :=
  [("@", includeFile), ("-include", includeFile),
   ofPath .libraryJars, ofPath .inJars, ofPath .resourceJars, ofPath .outJars,
   ofIntent .keep, ofIntent .keepClassMembers, ofIntent .keepClassesWithMembers,
   ofIntent .keepNames, ofIntent .keepClassMemberNames, ofIntent .keepClassesWithMemberNames,
   (attributesKeyword, keepAttributes),
   ofText .renameSourceFileAttribute, ofText .printSeeds, ofText .printUsage,
   ofText .printMapping, ofText .applyMapping,
   ofSwitch .verbose, ofText .dump, ofSwitch .ignoreWarnings, ofSwitch .warn, ofSwitch .note,
   ofSwitch .shrink, ofSwitch .obfuscate, ofSwitch .useMixedCaseClassNames,
   ofSwitch .overloadAggressively, ofText .defaultPackage, ofSwitch .skipNonPublicLibraryClasses]

/-- The keyword that the word abbreviates, with its directive. -/
def lookup? (word : String) : Option (String × Directive) :=
  if word = "" then none else table.find? fun e => word.toList.isPrefixOf e.1.toList

/-- Words that end the directive before them: options and the short form of the include. -/
def starts (word : String) : Bool := word.toList.head? == some '-' || word == "@"

end Directive

end KeepRules
