/-! # Class names

A class name has an external form, `com.example.Foo`, and an internal one, `com/example/Foo`.
Wildcard characters pass through, so that patterns convert like names. -/

set_option autoImplicit false

namespace KeepRules.ClassName

/-- Dots become slashes. -/
def internalChars (name : List Char) : List Char := name.map fun c => if c = '.' then '/' else c

/-- Slashes become dots. -/
def externalChars (name : List Char) : List Char := name.map fun c => if c = '/' then '.' else c

def toInternal (name : String) : String := String.ofList (internalChars name.toList)

def toExternal (name : String) : String := String.ofList (externalChars name.toList)

/-- The part of an external name after its last dot. -/
def short (name : String) : String :=
  String.ofList (name.toList.reverse.takeWhile (· ≠ '.')).reverse

theorem externalChars_internalChars {name : List Char} (h : '/' ∉ name) :
    externalChars (internalChars name) = name := by
  induction name with
  | nil => rfl
  | cons c rest ih =>
    simp only [List.mem_cons, not_or] at h
    have := ih h.2
    simp only [externalChars, internalChars, List.map_cons] at this ⊢
    rw [this]
    by_cases hd : c = '.'
    · simp [hd]
    · simp [hd, Ne.symm h.1]

theorem internalChars_externalChars {name : List Char} (h : '.' ∉ name) :
    internalChars (externalChars name) = name := by
  induction name with
  | nil => rfl
  | cons c rest ih =>
    simp only [List.mem_cons, not_or] at h
    have := ih h.2
    simp only [externalChars, internalChars, List.map_cons] at this ⊢
    rw [this]
    by_cases hd : c = '/'
    · simp [hd]
    · simp [hd, Ne.symm h.1]

theorem dot_notMem_internalChars (name : List Char) : '.' ∉ internalChars name := by
  simp only [internalChars, List.mem_map, not_exists, not_and]
  intro c _
  split <;> simp_all

end KeepRules.ClassName
