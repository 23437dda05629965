import KeepRules.Configuration
import KeepRules.Descriptor
import KeepRules.Sample.Random

/-! # Sample configurations

Generators for configurations and their parts. Every configuration drawn is one that reading a
text can give, so that writing it and reading it again gives it back. -/

set_option autoImplicit false

namespace KeepRules.Sample

open Gen

def lower : String := "abcdefghijklmnopqrstuvwxyz"

def upper : String := "ABCDEFGHIJKLMNOPQRSTUVWXYZ"

def digits : String := "0123456789"

/-! ## Modifiers and intents -/

/-- Modifiers of the vocabulary, none both required and forbidden. -/
def access (vocabulary : ModifierSet) : Gen Access := do
  let required : ModifierSet := ⟨BitVec.ofNat 12 (← below 4096)⟩
  let forbidden : ModifierSet := ⟨BitVec.ofNat 12 (← below 4096)⟩
  let required := required ∩ vocabulary
  return { required := required, forbidden := (forbidden ∩ vocabulary) \ required }

def intent : Gen KeepIntent :=
  oneOf .keep [.keepClassMembers, .keepClassesWithMembers, .keepNames, .keepClassMemberNames,
    .keepClassesWithMemberNames]

/-! ## Names and types -/

/-- Parts in front of a name, each followed by a mark. -/
def qualifiers (mark : String) (low high : Nat) : Gen String := do
  let parts ← several low high (text lower 1 5)
  return String.join (parts.map (· ++ mark))

def capitalized (rest : String) (longest : Nat) : Gen String :=
  return (← text upper 1 1) ++ (← text (lower ++ upper ++ rest) 0 longest)

/-- An internal class name such as `com/example/Widget`. -/
def internalClassName : Gen String :=
  return (← qualifiers "/" 1 3) ++ (← capitalized (digits ++ "_$") 6)

/-- An external type of a field or an argument. -/
def externalType : Gen String := do
  let primitive ← oneOf "boolean" ["byte", "char", "short", "int", "long", "float", "double"]
  let named := (← qualifiers "." 0 2) ++ (← capitalized digits 6)
  let base ← oneOf primitive [named]
  return base ++ String.join (List.replicate (← below 3) "[]")

def externalReturnType : Gen String := do
  if ← boolean then return "void" else externalType

def memberName : Gen String :=
  return (← text lower 1 1) ++ (← text (lower ++ upper ++ digits ++ "_") 0 8)

/-! ## Members -/

def field : Gen Member := do
  let access ← access .forField
  if ← boolean then return { access := access }
  else
    let name ← memberName
    let descriptor := Descriptor.internalType (← externalType)
    return { access := access, name := some name, descriptor := some descriptor }

def method : Gen Member := do
  let access ← access .forMethod
  let arguments ← several 0 3 externalType
  let named (name result : String) : Member :=
    { access := access
      name := some name
      descriptor := some (Descriptor.internalMethod result arguments) }
  match ← below 3 with
  | 0 => return { access := access }
  | 1 => return named constructorName "void"
  | _ => return named (← memberName) (← externalReturnType)

/-! ## Rules -/

/-- Comment lines as they are collected, joined by line feeds. -/
def comments : Gen (Option String) :=
  optional do
    let lines ← several 1 2 (text (" " ++ lower ++ upper ++ digits ++ "#.,") 0 16)
    return "\n".intercalate lines

def rule : Gen KeepRule := do
  return {
    access := ← access .forClass
    className := ← optional internalClassName
    extendsName := ← optional internalClassName
    asName := ← optional internalClassName
    intent := ← intent
    comments := ← comments
    fields := ← several 0 2 field
    methods := ← several 0 2 method }

/-! ## Class paths -/

def pathEntry : Gen PathEntry := do
  let parts ← several 1 2 (text lower 1 8)
  let filter ← optional do
    let filters ← several 1 2 do
      let negator ← oneOf "" ["!"]
      return negator ++ (← text (lower ++ "*/") 1 6)
    return ",".intercalate filters
  return { name := "/".intercalate parts ++ ".jar", filter := filter }

def classPath : Gen ClassPath := several 1 3 pathEntry

/-! ## Configurations -/

/-- The argument of an option that may be given without one. -/
def optionalArgument : Gen (Option String) :=
  optional do
    if ← boolean then return ""
    else return (← text lower 1 1) ++ (← text (lower ++ digits ++ "_.") 0 10)

def keepAttributes : Gen (Option (List String)) := optional (several 0 3 (capitalized "" 12))

def defaultPackage : Gen (Option String) :=
  optional do
    let parts ← several 0 3 (text lower 1 5)
    return "/".intercalate parts

def configuration : Gen Configuration := do
  return {
    inJars := ← optional classPath
    outJars := ← optional classPath
    libraryJars := ← optional classPath
    resourceJars := ← optional classPath
    keep := ← several 0 3 rule
    keepAttributes := ← keepAttributes
    newSourceFileAttribute := ← optionalArgument
    printSeeds := ← optionalArgument
    printUsage := ← optionalArgument
    printMapping := ← optionalArgument
    applyMapping := ← optionalArgument
    dump := ← optionalArgument
    defaultPackage := ← defaultPackage
    verbose := ← boolean
    ignoreWarnings := ← boolean
    warn := ← boolean
    note := ← boolean
    shrink := ← boolean
    obfuscate := ← boolean
    useMixedCaseClassNames := ← boolean
    overloadAggressively := ← boolean
    skipNonPublicLibraryClasses := ← boolean }

end KeepRules.Sample
