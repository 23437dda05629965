import KeepRules.ClassName
import KeepRules.Text.Cut

/-! # Types and method descriptors

A type has an external spelling, `java.lang.String[]`, and an internal one,
`[Ljava/lang/String;`. Both are read into and written from `TypeRef`. A method descriptor is the
internal spelling of a `Signature`: the argument types in parentheses, then the return type. -/

set_option autoImplicit false

namespace KeepRules

inductive Primitive where
  | void | boolean | byte | char | short | int | long | float | double
  deriving DecidableEq

namespace Primitive

def all : List Primitive := [void, boolean, byte, char, short, int, long, float, double]

def name : Primitive → List Char
  | void => "void".toList
  | boolean => "boolean".toList
  | byte => "byte".toList
  | char => "char".toList
  | short => "short".toList
  | int => "int".toList
  | long => "long".toList
  | float => "float".toList
  | double => "double".toList

def code : Primitive → Char
  | void => 'V'
  | boolean => 'Z'
  | byte => 'B'
  | char => 'C'
  | short => 'S'
  | int => 'I'
  | long => 'J'
  | float => 'F'
  | double => 'D'

def ofName? (name : List Char) : Option Primitive := all.find? fun p => p.name == name

def ofCode? (code : Char) : Option Primitive := all.find? fun p => p.code == code

theorem ofName?_name (p : Primitive) : ofName? p.name = some p := by cases p <;> rfl

theorem ofCode?_code (p : Primitive) : ofCode? p.code = some p := by cases p <;> rfl

theorem code_ne (p : Primitive) : p.code ≠ '[' ∧ p.code ≠ 'L' ∧ p.code ≠ ')' := by
  cases p <;> decide

theorem name_of_ofName? {s : List Char} {p : Primitive} (h : ofName? s = some p) : p.name = s := by
  simpa using List.find?_some h

theorem code_of_ofCode? {c : Char} {p : Primitive} (h : ofCode? c = some p) : p.code = c := by
  simpa using List.find?_some h

end Primitive

/-- The type at the bottom of an array type: a primitive, or a class by its external name. -/
inductive BaseType where
  | primitive (p : Primitive)
  | named (name : List Char)
  deriving DecidableEq

structure TypeRef where
  base : BaseType
  dimensions : Nat
  deriving DecidableEq

namespace BaseType

/-- A word that names no primitive names a class. -/
def ofExternal (name : List Char) : BaseType :=
  match Primitive.ofName? name with
  | some p => primitive p
  | none => named name

def external : BaseType → List Char
  | primitive p => p.name
  | named name => name

def internal : BaseType → List Char
  | primitive p => [p.code]
  | named name => 'L' :: ClassName.internalChars name ++ [';']

end BaseType

namespace TypeRef

/-- Splits the marks `[]` off the end of a reversed external type. -/
def ofReversed : List Char → TypeRef
  | ']' :: '[' :: rest =>
    let t := ofReversed rest
    { t with dimensions := t.dimensions + 1 }
  | name => { base := .ofExternal name.reverse, dimensions := 0 }

def ofExternal (type : List Char) : TypeRef := ofReversed type.reverse

def external (t : TypeRef) : List Char :=
  t.base.external ++ (List.replicate t.dimensions ['[', ']']).flatten

def internal (t : TypeRef) : List Char := List.replicate t.dimensions '[' ++ t.base.internal

/-- Reads one internal type off the front, with what follows it. -/
def readInternal : List Char → Option (TypeRef × List Char)
  | [] => none
  | c :: rest =>
    if c = '[' then
      (readInternal rest).map fun p => ({ p.1 with dimensions := p.1.dimensions + 1 }, p.2)
    else if c = 'L' then
      (Text.cut ';' rest).map fun p =>
        ({ base := .named (ClassName.externalChars p.1), dimensions := 0 }, p.2)
    else
      (Primitive.ofCode? c).map fun p => ({ base := .primitive p, dimensions := 0 }, rest)

/-- Reads a text that is one internal type and nothing else. -/
def ofInternal? (type : List Char) : Option TypeRef :=
  match readInternal type with
  | some (t, []) => some t
  | _ => none

theorem length_of_readInternal {s rest : List Char} {t : TypeRef}
    (h : readInternal s = some (t, rest)) : rest.length < s.length := by
  induction s generalizing t with
  | nil => simp [readInternal] at h
  | cons c s ih =>
    rw [readInternal] at h
    split at h
    · obtain ⟨⟨u, r⟩, hp, he⟩ := Option.map_eq_some_iff.1 h
      cases he
      exact Nat.lt_succ_of_lt (ih hp)
    · split at h
      · obtain ⟨⟨n, r⟩, hp, he⟩ := Option.map_eq_some_iff.1 h
        cases he
        exact Nat.lt_succ_of_lt (Text.length_of_cut hp)
      · obtain ⟨p, -, he⟩ := Option.map_eq_some_iff.1 h
        cases he
        exact Nat.lt_succ_self _

end TypeRef

/-- What a method takes and returns. -/
structure Signature where
  result : TypeRef
  arguments : List TypeRef
  deriving DecidableEq

namespace Signature

def internal (s : Signature) : List Char :=
  '(' :: s.arguments.flatMap TypeRef.internal ++ ')' :: s.result.internal

/-- Reads argument types up to `)`, and then the return type to the end. -/
def readArguments (descriptor : List Char) : Option Signature :=
  if descriptor.head? = some ')' then
    (TypeRef.ofInternal? descriptor.tail).map fun t => { result := t, arguments := [] }
  else
    match _h : TypeRef.readInternal descriptor with
    | none => none
    | some (t, rest) => (readArguments rest).map fun s => { s with arguments := t :: s.arguments }
termination_by descriptor.length
decreasing_by exact TypeRef.length_of_readInternal _h

def ofInternal? : List Char → Option Signature
  | '(' :: rest => readArguments rest
  | _ => none

end Signature

namespace Descriptor

/-- `int[][]` becomes `[[I`, and `a.B` becomes `La/B;`. -/
def internalType (type : String) : String := String.ofList (TypeRef.ofExternal type.toList).internal

/-- The external spelling of a text that is exactly one internal type. -/
def externalType? (type : String) : Option String :=
  (TypeRef.ofInternal? type.toList).map fun t => String.ofList t.external

/-- The descriptor of a method with these external return and argument types. -/
def internalMethod (result : String) (arguments : List String) : String :=
  String.ofList
    (Signature.internal
      { result := .ofExternal result.toList
        arguments := arguments.map fun a => .ofExternal a.toList })

/-- The external return type and argument types of a method descriptor. -/
def externalMethod? (descriptor : String) : Option (String × List String) :=
  (Signature.ofInternal? descriptor.toList).map fun s =>
    (String.ofList s.result.external, s.arguments.map fun a => String.ofList a.external)

end Descriptor

end KeepRules
