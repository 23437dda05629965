import KeepRules.Proofs.Descriptor.Grammar

/-! # Descriptors read back

Types and method descriptors are read back from their internal spelling, unless a class name holds
one of the characters that the internal spelling gives another meaning (`Readable`). Those cannot be
read back, since no type that is read holds them.

* `TypeRef.external_ofExternal`: an external spelling is lost in no case.
* `TypeForm.ofType`: the form in which a type is written.
* `TypeForm.readable_external`: what is read holds neither character.
* `Descriptor.external_internal_iff`: the spellings that reading gives back. -/

set_option autoImplicit false

namespace KeepRules

/-- Neither of the characters occurs that have a meaning inside an internal class name. -/
def Descriptor.Readable (type : List Char) : Prop := '/' ∉ type ∧ ';' ∉ type

open Descriptor (Readable)

namespace ClassName

theorem semicolon_notMem_internalChars {name : List Char} (h : ';' ∉ name) :
    ';' ∉ internalChars name := by
  intro hm
  obtain ⟨c, hc, he⟩ := List.mem_map.1 hm
  split at he
  · cases he
  · exact h (he ▸ hc)

theorem readable_externalChars {name : List Char} (h : ';' ∉ name) :
    Readable (externalChars name) := by
  refine ⟨fun hm => ?_, fun hm => ?_⟩
  · obtain ⟨c, -, he⟩ := List.mem_map.1 hm
    split at he
    · cases he
    · contradiction
  · obtain ⟨c, hc, he⟩ := List.mem_map.1 hm
    split at he
    · cases he
    · exact h (he ▸ hc)

end ClassName

namespace BaseType

theorem external_ofExternal (name : List Char) : (ofExternal name).external = name := by
  unfold ofExternal
  split
  · next p h => exact Primitive.name_of_ofName? h
  · rfl

/-- A class name can be told from what surrounds it. -/
def Readable : BaseType → Prop
  | primitive _ => True
  | named name => Descriptor.Readable name

theorem readable_ofExternal {name : List Char} (h : Descriptor.Readable name) :
    (ofExternal name).Readable := by
  unfold ofExternal
  split
  · trivial
  · exact h

end BaseType

namespace TypeRef

/-- One more dimension adds its mark at the end. -/
theorem external_succ (base : BaseType) (n : Nat) :
    external { base := base, dimensions := n + 1 } =
      external { base := base, dimensions := n } ++ ['[', ']'] := by
  simp only [external, List.replicate_succ', List.flatten_append, List.append_assoc]
  rfl

theorem external_ofReversed (s : List Char) : (ofReversed s).external = s.reverse := by
  fun_induction ofReversed s with
  | case1 rest t ih =>
    have ht : t.external = rest.reverse := ih
    show external { base := t.base, dimensions := t.dimensions + 1 } = _
    rw [external_succ]
    show t.external ++ _ = _
    rw [ht]
    simp
  | case2 name =>
    show (BaseType.ofExternal name.reverse).external ++ [] = _
    rw [List.append_nil, BaseType.external_ofExternal]

theorem external_ofExternal (type : List Char) : (ofExternal type).external = type := by
  rw [ofExternal, external_ofReversed, List.reverse_reverse]

theorem readable_ofReversed {s : List Char} (h : Readable s) : (ofReversed s).base.Readable := by
  fun_induction ofReversed s with
  | case1 rest t ih =>
    apply ih
    exact ⟨fun hm => h.1 (by simp [hm]), fun hm => h.2 (by simp [hm])⟩
  | case2 name =>
    apply BaseType.readable_ofExternal
    exact ⟨fun hm => h.1 (List.mem_reverse.1 hm), fun hm => h.2 (List.mem_reverse.1 hm)⟩

theorem readable_ofExternal {type : List Char} (h : Readable type) :
    (ofExternal type).base.Readable := by
  apply readable_ofReversed
  exact ⟨fun hm => h.1 (List.mem_reverse.1 hm), fun hm => h.2 (List.mem_reverse.1 hm)⟩

end TypeRef

/-! ## Forms -/

namespace TypeForm

def ofBase : (b : BaseType) → b.Readable → TypeForm
  | .primitive p, _ => primitive p
  | .named name, h =>
    named (ClassName.internalChars name) (ClassName.semicolon_notMem_internalChars h.2)

def arrays : Nat → TypeForm → TypeForm
  | 0, f => f
  | n + 1, f => array (arrays n f)

/-- The form in which a type is written. -/
def ofType (t : TypeRef) (h : t.base.Readable) : TypeForm := arrays t.dimensions (ofBase t.base h)

theorem spelling_ofType (t : TypeRef) (h : t.base.Readable) :
    (ofType t h).spelling = t.internal := by
  obtain ⟨base, n⟩ := t
  unfold ofType TypeRef.internal
  induction n with
  | zero => cases base <;> rfl
  | succ n ih =>
    rw [List.replicate_succ, List.cons_append]
    exact congrArg (List.cons '[') (ih h)

theorem type_ofType (t : TypeRef) (h : t.base.Readable) : (ofType t h).type = t := by
  obtain ⟨base, n⟩ := t
  unfold ofType
  induction n with
  | zero =>
    cases base with
    | primitive p => rfl
    | named name =>
      show ({ base := .named (ClassName.externalChars (ClassName.internalChars name)),
              dimensions := 0 } : TypeRef) = _
      rw [ClassName.externalChars_internalChars h.1]
  | succ n ih =>
    exact congrArg (fun t : TypeRef => { t with dimensions := t.dimensions + 1 }) (ih h)

/-- What is read holds neither of the characters with a meaning. -/
theorem readable_external (f : TypeForm) : Readable f.type.external := by
  induction f with
  | primitive p => cases p <;> exact ⟨by decide, by decide⟩
  | named name closed =>
    show Readable (ClassName.externalChars name ++ [])
    rw [List.append_nil]
    exact ClassName.readable_externalChars closed
  | array component ih =>
    have he : (array component).type.external = component.type.external ++ ['[', ']'] :=
      TypeRef.external_succ _ _
    rw [he]
    exact ⟨by simp [ih.1], by simp [ih.2]⟩

theorem exists_of_readable {ts : List TypeRef} (h : ∀ t ∈ ts, t.base.Readable) :
    ∃ fs : List TypeForm, fs.flatMap spelling = ts.flatMap TypeRef.internal ∧ fs.map type = ts := by
  induction ts with
  | nil => exact ⟨[], rfl, rfl⟩
  | cons t ts ih =>
    obtain ⟨fs, hs, ht⟩ := ih fun u hu => h u (List.mem_cons_of_mem _ hu)
    have htop := h t List.mem_cons_self
    refine ⟨ofType t htop :: fs, ?_, ?_⟩
    · rw [List.flatMap_cons, List.flatMap_cons, spelling_ofType, hs]
    · rw [List.map_cons, type_ofType, ht]

end TypeForm

/-! ## Reading what was written -/

theorem TypeRef.ofInternal?_internal {t : TypeRef} (h : t.base.Readable) :
    ofInternal? t.internal = some t :=
  ofInternal?_iff.2 ⟨.ofType t h, (TypeForm.spelling_ofType t h).symm, TypeForm.type_ofType t h⟩

theorem Signature.ofInternal?_internal {s : Signature} (hr : s.result.base.Readable)
    (ha : ∀ a ∈ s.arguments, a.base.Readable) : ofInternal? s.internal = some s := by
  obtain ⟨result, arguments⟩ := s
  obtain ⟨fs, hs, rfl⟩ := TypeForm.exists_of_readable ha
  refine ofInternal?_iff.2 ⟨⟨.ofType result hr, fs⟩, ?_, ?_⟩
  · rw [MethodForm.spelling, hs, TypeForm.spelling_ofType]
    rfl
  · rw [MethodForm.signature, TypeForm.type_ofType]

namespace Descriptor

theorem externalType?_of_readable {t : String} (h : Readable t.toList) :
    externalType? (internalType t) = some t := by
  unfold externalType? internalType
  rw [String.toList_ofList, TypeRef.ofInternal?_internal (TypeRef.readable_ofExternal h),
    Option.map_some, TypeRef.external_ofExternal, String.ofList_toList]

theorem externalMethod?_of_readable {result : String} {arguments : List String}
    (hr : Readable result.toList) (ha : ∀ a ∈ arguments, Readable a.toList) :
    externalMethod? (internalMethod result arguments) = some (result, arguments) := by
  have hargs : ∀ t ∈ arguments.map (fun a => TypeRef.ofExternal a.toList), t.base.Readable := by
    intro t ht
    obtain ⟨a, hm, rfl⟩ := List.mem_map.1 ht
    exact TypeRef.readable_ofExternal (ha a hm)
  unfold externalMethod? internalMethod
  rw [String.toList_ofList, Signature.ofInternal?_internal (TypeRef.readable_ofExternal hr) hargs]
  simp [TypeRef.external_ofExternal, Function.comp_def]

theorem readable_of_externalType? {d t : String} (h : externalType? d = some t) :
    Readable t.toList := by
  obtain ⟨u, hu, rfl⟩ := Option.map_eq_some_iff.1 h
  obtain ⟨f, -, rfl⟩ := TypeRef.ofInternal?_iff.1 hu
  rw [String.toList_ofList]
  exact f.readable_external

theorem readable_of_externalMethod? {d result : String} {arguments : List String}
    (h : externalMethod? d = some (result, arguments)) :
    ∀ t ∈ result :: arguments, Readable t.toList := by
  obtain ⟨s, hs, he⟩ := Option.map_eq_some_iff.1 h
  obtain ⟨m, -, rfl⟩ := Signature.ofInternal?_iff.1 hs
  cases he
  intro t ht
  obtain ⟨f, rfl⟩ : ∃ f : TypeForm, t = String.ofList f.type.external := by
    rcases List.mem_cons.1 ht with rfl | ht
    · exact ⟨m.result, rfl⟩
    · obtain ⟨u, hu, rfl⟩ := List.mem_map.1 ht
      obtain ⟨f, -, rfl⟩ := List.mem_map.1 hu
      exact ⟨f, rfl⟩
  rw [String.toList_ofList]
  exact f.readable_external

/-- **Reading undoes writing exactly where it can**: for types, and for the return and argument
types of methods, that hold neither a semicolon nor a slash. -/
theorem external_internal_iff :
    (∀ type : String,
      externalType? (internalType type) = some type ↔ ';' ∉ type.toList ∧ '/' ∉ type.toList) ∧
    ∀ (result : String) (arguments : List String),
      externalMethod? (internalMethod result arguments) = some (result, arguments) ↔
        ∀ type ∈ result :: arguments, ';' ∉ type.toList ∧ '/' ∉ type.toList := by
  refine ⟨fun type => ⟨fun h => ?_, fun h => ?_⟩,
    fun result arguments => ⟨fun h => ?_, fun h => ?_⟩⟩
  · exact (readable_of_externalType? h).symm
  · exact externalType?_of_readable h.symm
  · exact fun type ht => (readable_of_externalMethod? h type ht).symm
  · exact externalMethod?_of_readable (h result List.mem_cons_self).symm
      fun a ha => (h a (List.mem_cons_of_mem _ ha)).symm

/-- A class name may be empty, or be the code of a primitive. -/
example : externalType? (internalType "[][]") = some "[][]" ∧
    externalType? (internalType "V") = some "V" := by decide

end Descriptor

end KeepRules
