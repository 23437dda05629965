import KeepRules.Configuration.RoundTrip
import KeepRules.Identifier
import KeepRules.Json.Model
import KeepRules.Sample.Check
import KeepRules.Sample.Generate

/-! # Surveys of samples

A survey draws many samples of a kind, notes the shapes that occur among them, and says whether
all of them meet the condition for their kind. -/

set_option autoImplicit false

namespace KeepRules.Sample

inductive Kind where
  | access (vocabulary : ModifierSet)
  | intent | internalClassName | externalType | externalReturnType | memberName | field | method
  | comments | rule | pathEntry | classPath | optionalArgument | keepAttributes | configuration

/-- What is noted about one sample. -/
structure Finding where
  holds : Bool
  shapes : List String

/-! ## Shapes -/

def accessShapes (a : Access) : List String :=
  a.required.keywords ++ a.forbidden.keywords.map ("!" ++ ·)

/-- Nothing, the empty text, or some text. -/
def argumentShape : Option String → String
  | none => "none"
  | some "" => "empty"
  | some _ => "text"

def flagShape (name : String) (value : Option String) : String :=
  name ++ (if value.isSome then " true" else " false")

/-! ## Findings -/

def isPatternOrNone (name : Option String) : Bool :=
  name.all fun n => Identifier.isPattern (ClassName.toExternal n)

def findAccess (vocabulary : ModifierSet) (a : Access) : Finding where
  holds := decide (a.Disjoint ∧ a.mentioned ⊆ vocabulary)
  shapes := accessShapes a

def findIntent (i : KeepIntent) : Finding where
  holds := (Directive.lookup? i.keyword).map Prod.snd == some (.keep i)
  shapes := [i.keyword]

def findClassName (name : String) : Finding where
  holds :=
    let external := ClassName.toExternal name
    Identifier.isPattern external && ClassName.toInternal external == name
  shapes := [toString (Text.split '/' name.toList).length]

def convertsBack (type : String) : Bool :=
  Descriptor.externalType? (Descriptor.internalType type) == some type

def findType (type : String) : Finding where
  holds := Identifier.isPattern type && convertsBack type
  shapes :=
    let internal := (Descriptor.internalType type).toList
    let base := internal.dropWhile (· == '[')
    [toString (internal.length - base.length), String.ofList (base.take 1)]

def findReturnType (type : String) : Finding where
  holds := convertsBack type
  shapes := [if type = "void" then "void" else "other"]

def findMemberName (name : String) : Finding where
  holds :=
    Identifier.isPattern name && name.length ≤ 9 && (Modifier.ofKeyword? name).isNone
  shapes := [if 1 < name.length then "true" else "false"]

def findField (m : Member) : Finding where
  holds :=
    m.access.checkField.toBool && decide m.access.Disjoint &&
      m.name.isSome == m.descriptor.isSome &&
      m.descriptor.all fun d => (Descriptor.externalType? d).isSome
  shapes := (if m.name.isSome then "named" else "any") :: accessShapes m.access

def findMethod (m : Member) : Finding where
  holds :=
    m.access.checkMethod.toBool && decide m.access.Disjoint &&
      m.descriptor.all fun d =>
        match Descriptor.externalMethod? d with
        | none => false
        | some (result, _) => !m.isConstructor || result == "void"
  shapes :=
    let arguments :=
      match m.descriptor.bind Descriptor.externalMethod? with
      | none => []
      | some (_, arguments) => [toString arguments.length]
    let kind := if m.isConstructor then "constructor" else if m.name.isSome then "named" else "any"
    kind :: accessShapes m.access ++ arguments

def findComments (comments : Option String) : Finding :=
  let lines := comments.elim 0 fun text => (Text.split '\n' text.toList).length
  { holds := decide (lines ≤ 2), shapes := [toString lines] }

def findRule (r : KeepRule) : Finding where
  holds :=
    (r.constraints.forM checkDisjoint).toBool && decide (r.access.mentioned ⊆ .forClass) &&
      isPatternOrNone r.className && isPatternOrNone r.extendsName && isPatternOrNone r.asName &&
      r.hasMembers == decide (0 < r.fields.length + r.methods.length)
  shapes :=
    [r.intent.keyword, "fields " ++ toString r.fields.length,
     "methods " ++ toString r.methods.length, flagShape "class" r.className,
     flagShape "extends" r.extendsName, flagShape "as" r.asName, flagShape "comments" r.comments]

def findPathEntry (e : PathEntry) : Finding where
  holds := e.name.endsWith ".jar"
  shapes := [toString (e.filter.elim 0 fun filter => (Text.split ',' filter.toList).length)]

def findClassPath (path : ClassPath) : Finding where
  holds := !path.isEmpty
  shapes := [toString path.length]

def findArgument (argument : Option String) : Finding where
  holds := argument.all fun text => text.toList.head? != some '-' && !text.toList.any Text.isBlank
  shapes := [argumentShape argument]

def findAttributes (names : Option (List String)) : Finding where
  holds :=
    let config : Configuration := { keepAttributes := names }
    (names.getD []).all config.retainsAttribute
  shapes := [names.elim "none" fun names => toString names.length]

/-- Written and read again, as text and as JSON, the configuration is the same. -/
def findConfiguration (host : Host) (c : Configuration) : Finding where
  holds :=
    let settings : Settings := {}
    let printed := c.print settings.pathSeparator
    let reread := Configuration.ofText host settings "printed.pro" printed
    let printedAgain := Configuration.roundTrip host settings printed
    (checkAllDisjoint c).toBool && reread.toOption == some c &&
      printedAgain.toOption == some printed && (Decoder.configuration c.toJson).toOption == some c
  shapes := [toString c.keep.length, argumentShape c.dump]

/-! ## Surveys -/

/-- A finding on one more sample of a kind. -/
def finding (host : Host) : Kind → Gen Finding
  | .access vocabulary => return findAccess vocabulary (← access vocabulary)
  | .intent => return findIntent (← intent)
  | .internalClassName => return findClassName (← internalClassName)
  | .externalType => return findType (← externalType)
  | .externalReturnType => return findReturnType (← externalReturnType)
  | .memberName => return findMemberName (← memberName)
  | .field => return findField (← field)
  | .method => return findMethod (← method)
  | .comments => return findComments (← comments)
  | .rule => return findRule (← rule)
  | .pathEntry => return findPathEntry (← pathEntry)
  | .classPath => return findClassPath (← classPath)
  | .optionalArgument => return findArgument (← optionalArgument)
  | .keepAttributes => return findAttributes (← keepAttributes)
  | .configuration => return findConfiguration host (← configuration)

/-- The texts in order, each once. -/
def sortedShapes (shapes : List String) : List String :=
  (shapes.eraseDups).mergeSort fun a b => a ≤ b

def survey (host : Host) (kind : Kind) (cases seed : Nat) : Finding :=
  let findings := (Gen.exactly (finding host kind) cases).draw seed
  { holds := findings.all Finding.holds
    shapes := sortedShapes (findings.flatMap Finding.shapes) }

end KeepRules.Sample
