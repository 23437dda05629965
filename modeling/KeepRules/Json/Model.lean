import KeepRules.Configuration
import KeepRules.Json.Decode
import KeepRules.Settings

/-! # The model in JSON

How configurations, their parts and settings are written as JSON values and read back. What is
not given is written as `null`, except for filters and for the names and descriptors of members,
which are left out. -/

set_option autoImplicit false

namespace KeepRules

open Decoder

namespace Json

def ofOption {α : Type} (encode : α → Json) : Option α → Json
  | none => .null
  | some a => encode a

/-- A field that is left out when there is no value. -/
def optionalField (name : String) (value : Option String) : List (String × Json) :=
  match value with
  | none => []
  | some s => [(name, .string s)]

end Json

/-! ## Writing -/

namespace ModifierSet

def toJson (s : ModifierSet) : Json := .number s.toNat

end ModifierSet

namespace Access

def toJson (a : Access) : Json :=
  .object [("required_set", a.required.toJson), ("required_unset", a.forbidden.toJson)]

end Access

namespace PathEntry

def toJson (e : PathEntry) : Json :=
  .object (("name", .string e.name) :: Json.optionalField "filter" e.filter)

end PathEntry

namespace ClassPath

def toJson (path : ClassPath) : Json := .array (path.map PathEntry.toJson)

end ClassPath

namespace Member

def toJson (m : Member) : Json :=
  .object (("access", m.access.toJson) :: Json.optionalField "name" m.name ++
    Json.optionalField "descriptor" m.descriptor)

end Member

namespace KeepIntent

def toJson (i : KeepIntent) : Json :=
  .object [("mark_classes", .bool i.markClasses),
    ("mark_classes_conditionally", .bool i.conditionally),
    ("only_keep_names", .bool i.onlyNames)]

end KeepIntent

namespace KeepRule

def toJson (r : KeepRule) : Json :=
  .object [("access", r.access.toJson),
    ("class_name", .ofOption .string r.className),
    ("extends_class_name", .ofOption .string r.extendsName),
    ("as_class_name", .ofOption .string r.asName),
    ("intent", r.intent.toJson),
    ("comments", .ofOption .string r.comments),
    ("fields", .array (r.fields.map Member.toJson)),
    ("methods", .array (r.methods.map Member.toJson))]

end KeepRule

namespace Configuration

def toJson (c : Configuration) : Json :=
  .object [("in_jars", .ofOption ClassPath.toJson c.inJars),
    ("out_jars", .ofOption ClassPath.toJson c.outJars),
    ("library_jars", .ofOption ClassPath.toJson c.libraryJars),
    ("resource_jars", .ofOption ClassPath.toJson c.resourceJars),
    ("keep", .array (c.keep.map KeepRule.toJson)),
    ("keep_attributes", .ofOption (fun names => .array (names.map .string)) c.keepAttributes),
    ("new_source_file_attribute", .ofOption .string c.newSourceFileAttribute),
    ("print_seeds", .ofOption .string c.printSeeds),
    ("print_usage", .ofOption .string c.printUsage),
    ("print_mapping", .ofOption .string c.printMapping),
    ("apply_mapping", .ofOption .string c.applyMapping),
    ("dump", .ofOption .string c.dump),
    ("default_package", .ofOption .string c.defaultPackage),
    ("verbose", .bool c.verbose),
    ("ignore_warnings", .bool c.ignoreWarnings),
    ("warn", .bool c.warn),
    ("note", .bool c.note),
    ("shrink", .bool c.shrink),
    ("obfuscate", .bool c.obfuscate),
    ("use_mixed_case_class_names", .bool c.useMixedCaseClassNames),
    ("overload_aggressively", .bool c.overloadAggressively),
    ("skip_non_public_library_classes", .bool c.skipNonPublicLibraryClasses)]

end Configuration

namespace Settings

def toJson (s : Settings) : Json :=
  .object [("max_include_depth", .number s.maxIncludeDepth),
    ("path_separator", .string s.pathSeparator.toString),
    ("inherit_environment", .bool s.inheritEnvironment)]

end Settings

/-! ## Reading -/

namespace Decoder

/-- An access word of sixteen bits, of which only twelve may be set. -/
def modifiers : Decoder ModifierSet := fun j => do
  let bits ← natural 0xFFFF j
  match ModifierSet.ofNat? bits with
  | some s => return s
  | none => throw (.undefinedBits bits)

def access : Decoder Access := fun j => do
  let fields ← record ["required_set", "required_unset"] j
  let required? ← field? fields "required_set" modifiers
  let forbidden? ← field? fields "required_unset" modifiers
  return { required := ← required required?, forbidden := ← required forbidden? }

def pathEntry : Decoder PathEntry := fun j => do
  let fields ← record ["name", "filter"] j
  let filter ← field? fields "filter" (optional text)
  let name ← field? fields "name" text
  return { name := ← required name, filter := filter.join }

def classPath : Decoder ClassPath := list pathEntry

def member : Decoder Member := fun j => do
  let fields ← record ["access", "name", "descriptor"] j
  let access ← field? fields "access" access
  let descriptor ← field? fields "descriptor" (optional text)
  let name ← field? fields "name" (optional text)
  return { access := ← required access, name := name.join, descriptor := descriptor.join }

def intent : Decoder KeepIntent := fun j => do
  let fields ← record ["mark_classes", "mark_classes_conditionally", "only_keep_names"] j
  let markClasses ← field? fields "mark_classes" boolean
  let conditionally ← field? fields "mark_classes_conditionally" boolean
  let onlyNames ← field? fields "only_keep_names" boolean
  return {
    markClasses := ← required markClasses
    conditionally := ← required conditionally
    onlyNames := ← required onlyNames }

def rule : Decoder KeepRule := fun j => do
  let fields ← record ["access", "class_name", "extends_class_name", "as_class_name", "intent",
    "comments", "fields", "methods"] j
  let access ← field? fields "access" access
  let asName ← field? fields "as_class_name" (optional text)
  let className ← field? fields "class_name" (optional text)
  let comments ← field? fields "comments" (optional text)
  let extendsName ← field? fields "extends_class_name" (optional text)
  let members ← field? fields "fields" (list member)
  let intent ← field? fields "intent" intent
  let methods ← field? fields "methods" (list member)
  return {
    access := ← required access
    className := className.join
    extendsName := extendsName.join
    asName := asName.join
    intent := ← required intent
    comments := comments.join
    fields := ← required members
    methods := ← required methods }

/-- A missing field has its default value. -/
def configuration : Decoder Configuration := fun j => do
  let fields ← record ["in_jars", "out_jars", "library_jars", "resource_jars", "keep",
    "keep_attributes", "new_source_file_attribute", "print_seeds", "print_usage", "print_mapping",
    "apply_mapping", "dump", "default_package", "verbose", "ignore_warnings", "warn", "note",
    "shrink", "obfuscate", "use_mixed_case_class_names", "overload_aggressively",
    "skip_non_public_library_classes"] j
  let path (name : String) : Except DecodeError (Option ClassPath) :=
    return (← field? fields name (optional classPath)).join
  let option (name : String) : Except DecodeError (Option String) :=
    return (← field? fields name (optional text)).join
  let switch (name : String) (value : Bool) : Except DecodeError Bool :=
    return (← field? fields name boolean).getD value
  return {
    applyMapping := ← option "apply_mapping"
    defaultPackage := ← option "default_package"
    dump := ← option "dump"
    ignoreWarnings := ← switch "ignore_warnings" false
    inJars := ← path "in_jars"
    keep := (← field? fields "keep" (list rule)).getD []
    keepAttributes := (← field? fields "keep_attributes" (optional (list text))).join
    libraryJars := ← path "library_jars"
    newSourceFileAttribute := ← option "new_source_file_attribute"
    note := ← switch "note" true
    obfuscate := ← switch "obfuscate" true
    outJars := ← path "out_jars"
    overloadAggressively := ← switch "overload_aggressively" false
    printMapping := ← option "print_mapping"
    printSeeds := ← option "print_seeds"
    printUsage := ← option "print_usage"
    resourceJars := ← path "resource_jars"
    shrink := ← switch "shrink" true
    skipNonPublicLibraryClasses := ← switch "skip_non_public_library_classes" true
    useMixedCaseClassNames := ← switch "use_mixed_case_class_names" true
    verbose := ← switch "verbose" false
    warn := ← switch "warn" true }

/-- The character of a text that has exactly one. -/
def character : Decoder Char := fun j => do
  match Settings.onlyChar? (← text j) with
  | some c => return c
  | none => throw .mismatch

/-- A missing field has its default value. -/
def settings : Decoder Settings := fun j => do
  let fields ← record ["max_include_depth", "path_separator", "inherit_environment"] j
  let inherits ← field? fields "inherit_environment" boolean
  let depth ← field? fields "max_include_depth" (natural Settings.greatestDepth)
  let separator ← field? fields "path_separator" character
  return {
    maxIncludeDepth := depth.getD 32
    pathSeparator := separator.getD ':'
    inheritEnvironment := inherits.getD true }

end Decoder

end KeepRules
