import KeepRules.Access

/-! # Keep rules

Which classes and class members survive shrinking and renaming, and under which conditions. -/

set_option autoImplicit false

namespace KeepRules

/-- The reserved name of instance initializers. -/
def constructorName : String := "<init>"

/-- What a rule asks for, independent of what it matches. -/
structure KeepIntent where
  /-- The matching classes are marked themselves. -/
  markClasses : Bool
  /-- The matching classes are marked if they have all the listed members. -/
  conditionally : Bool
  /-- Names are protected from renaming only; shrinking may still remove what bears them. -/
  onlyNames : Bool
  deriving DecidableEq

namespace KeepIntent

def keep : KeepIntent := ⟨true, false, false⟩
def keepClassMembers : KeepIntent := ⟨false, false, false⟩
def keepClassesWithMembers : KeepIntent := ⟨false, true, false⟩
def keepNames : KeepIntent := ⟨true, false, true⟩
def keepClassMemberNames : KeepIntent := ⟨false, false, true⟩
def keepClassesWithMemberNames : KeepIntent := ⟨false, true, true⟩

/-- The intents that a directive can express. -/
def all : List KeepIntent :=
  [keep, keepClassMembers, keepClassesWithMembers, keepNames, keepClassMemberNames,
   keepClassesWithMemberNames]

end KeepIntent

/-- A field or a method to look for. No name, or no descriptor, stands for any. -/
structure Member where
  access : Access
  name : Option String := none
  /-- An internal field type or a method descriptor. -/
  descriptor : Option String := none
  deriving DecidableEq

namespace Member

def isConstructor (m : Member) : Bool := m.name == some constructorName

end Member

/-- One keep rule. Class names are internal. -/
structure KeepRule where
  access : Access := {}
  /-- No name stands for every class. -/
  className : Option String
  /-- A superclass or an interface that the class must have. -/
  extendsName : Option String := none
  /-- The new name of the class. -/
  asName : Option String := none
  intent : KeepIntent
  /-- The comment lines written right before the rule. -/
  comments : Option String := none
  fields : List Member := []
  methods : List Member := []
  deriving DecidableEq

namespace KeepRule

def hasMembers (r : KeepRule) : Bool := !r.fields.isEmpty || !r.methods.isEmpty

def addField (r : KeepRule) (m : Member) : KeepRule := { r with fields := r.fields ++ [m] }

def addMethod (r : KeepRule) (m : Member) : KeepRule := { r with methods := r.methods ++ [m] }

/-- Every access constraint of the rule, its own first. -/
def constraints (r : KeepRule) : List Access :=
  r.access :: (r.fields ++ r.methods).map Member.access

end KeepRule

end KeepRules
