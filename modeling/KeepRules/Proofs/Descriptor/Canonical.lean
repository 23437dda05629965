import KeepRules.Proofs.Descriptor

/-! # Descriptors written again

A descriptor that is read can be written again from the external types that it gives. Different
descriptors give the same types, so the text may change: a class name with a dot in it gets a slash
there, one that is the name of a primitive becomes the code of that primitive, and one that ends
like an array type becomes an array.

* `TypeForm.rewritten`: the form that a type takes when it is written again.
* `TypeForm.rewritten_eq_iff`, `MethodForm.rewritten_eq_iff`: when the form stays the same, by the
  class names in it (`ClassName.IsCanonical`).
* `Descriptor.externalMethod?_iff`, `Descriptor.externalType?_iff`: which texts are read, and as
  what. -/

set_option autoImplicit false

namespace KeepRules

/-- The internal class name is written like this again when it has been read. -/
structure ClassName.IsCanonical (name : List Char) : Prop where
  noDot : '.' ∉ name
  notPrimitive : ∀ p : Primitive, name ≠ p.name
  notArray : ¬['[', ']'] <:+ name

namespace TypeRef

theorem ofExternal_append (type : List Char) :
    ofExternal (type ++ ['[', ']']) =
      { ofExternal type with dimensions := (ofExternal type).dimensions + 1 } := by
  unfold ofExternal
  rw [List.reverse_append]
  rfl

theorem internal_ofExternal_append (type : List Char) :
    (ofExternal (type ++ ['[', ']'])).internal = '[' :: (ofExternal type).internal := by
  rw [ofExternal_append]
  simp only [internal, List.replicate_succ, List.cons_append]

/-- A spelling that does not end like an array type is that of a base type. -/
theorem internal_ofExternal_of_not_suffix {type : List Char} (h : ¬['[', ']'] <:+ type) :
    (ofExternal type).internal = (BaseType.ofExternal type).internal := by
  unfold ofExternal ofReversed
  split
  · next rest hr =>
    have htype : type = rest.reverse ++ ['[', ']'] := by
      rw [← List.reverse_reverse type, hr]
      simp
    exact absurd ⟨rest.reverse, htype.symm⟩ h
  · rw [List.reverse_reverse]
    rfl

end TypeRef

/-! ## Class names -/

namespace ClassName

theorem externalChars_array (name : List Char) :
    externalChars (name ++ ['[', ']']) = externalChars name ++ ['[', ']'] := List.map_append

theorem internalChars_array (name : List Char) :
    internalChars (name ++ ['[', ']']) = internalChars name ++ ['[', ']'] := List.map_append

theorem externalChars_primitive (p : Primitive) : externalChars p.name = p.name := by
  cases p <;> rfl

theorem internalChars_primitive (p : Primitive) : internalChars p.name = p.name := by
  cases p <;> rfl

/-- A base type is a class of the name that it is written with, unless it is a primitive. -/
theorem internal_ofExternal_eq_iff {type name : List Char} :
    (BaseType.ofExternal type).internal = 'L' :: (name ++ [';']) ↔
      (∀ p : Primitive, type ≠ p.name) ∧ internalChars type = name := by
  unfold BaseType.ofExternal
  split
  · next p hp =>
    have hne : p.code ≠ 'L' := p.code_ne.2.1
    constructor
    · intro h
      exact absurd (List.cons.inj h).1 hne
    · rintro ⟨h, -⟩
      exact absurd (Primitive.name_of_ofName? hp).symm (h p)
  · next hnone =>
    have hp : ∀ p : Primitive, type ≠ p.name := by
      rintro p rfl
      rw [Primitive.ofName?_name] at hnone
      cases hnone
    constructor
    · intro h
      exact ⟨hp, List.append_cancel_right (List.cons.inj h).2⟩
    · rintro ⟨-, rfl⟩
      rfl

/-- A class name that is read is written as it was exactly if it is canonical. -/
theorem isCanonical_iff {name : List Char} :
    (TypeRef.ofExternal (externalChars name)).internal = 'L' :: (name ++ [';']) ↔
      IsCanonical name := by
  constructor
  · intro h
    have harray : ¬['[', ']'] <:+ name := by
      rintro ⟨component, rfl⟩
      rw [externalChars_array, TypeRef.internal_ofExternal_append] at h
      exact absurd (List.cons.inj h).1 (by decide)
    have hexternal : ¬['[', ']'] <:+ externalChars name := by
      rintro ⟨component, hc⟩
      rw [← hc, TypeRef.internal_ofExternal_append] at h
      exact absurd (List.cons.inj h).1 (by decide)
    rw [TypeRef.internal_ofExternal_of_not_suffix hexternal, internal_ofExternal_eq_iff] at h
    obtain ⟨hprimitive, hname⟩ := h
    refine ⟨?_, ?_, harray⟩
    · rw [← hname]
      exact dot_notMem_internalChars _
    · rintro p rfl
      exact hprimitive p (externalChars_primitive p)
  · rintro ⟨hdot, hprimitive, harray⟩
    -- without dots, nothing of the name is lost
    have hback : internalChars (externalChars name) = name := internalChars_externalChars hdot
    have hexternal : ¬['[', ']'] <:+ externalChars name := by
      rintro ⟨component, hc⟩
      apply harray
      rw [← hback, ← hc, internalChars_array]
      exact List.suffix_append _ _
    rw [TypeRef.internal_ofExternal_of_not_suffix hexternal, internal_ofExternal_eq_iff]
    refine ⟨fun p hp => hprimitive p ?_, hback⟩
    rw [← hback, hp, internalChars_primitive]

end ClassName

/-! ## Forms -/

open ClassName (IsCanonical)

namespace TypeForm

/-- The form that the type takes when it is written again. -/
def rewritten (f : TypeForm) : TypeForm :=
  ofType (.ofExternal f.type.external) (TypeRef.readable_ofExternal f.readable_external)

theorem spelling_rewritten (f : TypeForm) :
    f.rewritten.spelling = (TypeRef.ofExternal f.type.external).internal :=
  spelling_ofType _ _

theorem rewritten_primitive (p : Primitive) : (primitive p).rewritten = primitive p := by
  cases p <;> rfl

theorem rewritten_array (f : TypeForm) : (array f).rewritten = array f.rewritten := by
  apply spelling_inj
  have he : (array f).type.external = f.type.external ++ ['[', ']'] := TypeRef.external_succ _ _
  rw [spelling_rewritten, he, TypeRef.internal_ofExternal_append]
  exact congrArg (List.cons '[') f.spelling_rewritten.symm

theorem rewritten_named_iff {name : List Char} (closed : ';' ∉ name) :
    (named name closed).rewritten = named name closed ↔ IsCanonical name := by
  have he : (named name closed).type.external = ClassName.externalChars name := List.append_nil _
  rw [← ClassName.isCanonical_iff, ← he, ← spelling_rewritten]
  exact ⟨fun h => congrArg spelling h, fun h => spelling_inj h⟩

theorem rewritten_eq_iff (f : TypeForm) :
    f.rewritten = f ↔ ∀ name, f.className? = some name → IsCanonical name := by
  induction f with
  | primitive p =>
    refine ⟨fun _ name he => ?_, fun _ => rewritten_primitive p⟩
    cases he
  | named name closed =>
    rw [rewritten_named_iff]
    refine ⟨fun h name' he => ?_, fun h => h name rfl⟩
    cases he
    exact h
  | array component ih =>
    rw [rewritten_array, array.injEq]
    exact ih

end TypeForm

namespace MethodForm

/-- The form that the descriptor takes when it is written again. -/
def rewritten (m : MethodForm) : MethodForm where
  result := m.result.rewritten
  arguments := m.arguments.map TypeForm.rewritten

theorem rewritten_eq_iff (m : MethodForm) :
    m.rewritten = m ↔ ∀ name ∈ m.classNames, IsCanonical name := by
  have hforms : m.rewritten = m ↔ ∀ f ∈ m.result :: m.arguments, f.rewritten = f := by
    obtain ⟨result, arguments⟩ := m
    simp only [rewritten, mk.injEq, List.forall_mem_cons]
    refine and_congr_right fun _ => ?_
    exact ⟨fun h => List.map_inj_left.1 (h.trans (List.map_id _).symm),
      fun h => (List.map_inj_left.2 h).trans (List.map_id _)⟩
  rw [hforms]
  constructor
  · intro h name hname
    obtain ⟨f, hf, he⟩ := List.mem_filterMap.1 hname
    exact f.rewritten_eq_iff.1 (h f hf) name he
  · intro h f hf
    exact f.rewritten_eq_iff.2 fun name he => h name (List.mem_filterMap.2 ⟨f, hf, he⟩)

end MethodForm

/-! ## Descriptors -/

namespace Descriptor

theorem externalType?_iff {d type : String} :
    externalType? d = some type ↔
      ∃ f : TypeForm, d.toList = f.spelling ∧ type = String.ofList f.type.external := by
  simp only [externalType?, Option.map_eq_some_iff, TypeRef.ofInternal?_iff]
  constructor
  · rintro ⟨t, ⟨f, hd, rfl⟩, rfl⟩
    exact ⟨f, hd, rfl⟩
  · rintro ⟨f, hd, rfl⟩
    exact ⟨_, ⟨f, hd, rfl⟩, rfl⟩

theorem externalMethod?_iff {d result : String} {arguments : List String} :
    externalMethod? d = some (result, arguments) ↔
      ∃ m : MethodForm, d.toList = m.spelling ∧
        result = String.ofList m.result.type.external ∧
        arguments = m.arguments.map fun f => String.ofList f.type.external := by
  simp only [externalMethod?, Option.map_eq_some_iff, Signature.ofInternal?_iff, Prod.mk.injEq]
  constructor
  · rintro ⟨s, ⟨m, hd, rfl⟩, rfl, rfl⟩
    exact ⟨m, hd, rfl, List.map_map⟩
  · rintro ⟨m, hd, rfl, rfl⟩
    exact ⟨_, ⟨m, hd, rfl⟩, rfl, List.map_map⟩

theorem internalMethod_external (m : MethodForm) :
    internalMethod (String.ofList m.result.type.external)
        (m.arguments.map fun f => String.ofList f.type.external) =
      String.ofList m.rewritten.spelling := by
  simp only [internalMethod, Signature.internal, MethodForm.spelling, MethodForm.rewritten,
    TypeForm.spelling_rewritten, String.toList_ofList, List.map_map, List.flatMap_map,
    Function.comp_def]
  rfl

/-- **Method descriptors and types are read exactly if they follow the grammar.** A descriptor that
is read is written again as it was exactly if all class names in it are canonical. -/
theorem externalMethod?_grammar (d : String) :
    ((externalMethod? d).isSome = true ↔ ∃ m : MethodForm, d.toList = m.spelling) ∧
    ((externalType? d).isSome = true ↔ ∃ f : TypeForm, d.toList = f.spelling) ∧
    ∀ (m : MethodForm) (result : String) (arguments : List String),
      d.toList = m.spelling → externalMethod? d = some (result, arguments) →
      arguments.length = m.arguments.length ∧
        (internalMethod result arguments = d ↔ ∀ name ∈ m.classNames, IsCanonical name) := by
  refine ⟨?_, ?_, fun m result arguments hd h => ?_⟩
  · simp only [Option.isSome_iff_exists, Prod.exists, externalMethod?_iff]
    exact ⟨fun ⟨_, _, m, hd, _⟩ => ⟨m, hd⟩, fun ⟨m, hd⟩ => ⟨_, _, m, hd, rfl, rfl⟩⟩
  · simp only [Option.isSome_iff_exists, externalType?_iff]
    exact ⟨fun ⟨_, f, hd, _⟩ => ⟨f, hd⟩, fun ⟨f, hd⟩ => ⟨_, f, hd, rfl⟩⟩
  · obtain ⟨m', hd', rfl, rfl⟩ := externalMethod?_iff.1 h
    obtain rfl := MethodForm.spelling_inj (hd.symm.trans hd')
    refine ⟨List.length_map _, ?_⟩
    rw [internalMethod_external, ← MethodForm.rewritten_eq_iff, ← String.toList_inj,
      String.toList_ofList, hd]
    exact ⟨fun h => MethodForm.spelling_inj h, fun h => congrArg MethodForm.spelling h⟩

/-- A class called like a primitive becomes that primitive. -/
theorem externalMethod?_grammar_int :
    ∃ m : MethodForm, "([La/b;Lint;)[J".toList = m.spelling ∧
      externalMethod? "([La/b;Lint;)[J" = some ("long[]", ["a.b[]", "int"]) ∧
      m.arguments.length = 2 ∧ "int".toList ∈ m.classNames ∧
      internalMethod "long[]" ["a.b[]", "int"] ≠ "([La/b;Lint;)[J" := by
  let m : MethodForm :=
    { result := .array (.primitive .long)
      arguments := [.array (.named "a/b".toList (by decide)), .named "int".toList (by decide)] }
  have hd : "([La/b;Lint;)[J".toList = m.spelling := by decide
  have h : externalMethod? "([La/b;Lint;)[J" = some ("long[]", ["a.b[]", "int"]) :=
    externalMethod?_iff.2 ⟨m, hd, by decide, by decide⟩
  have hint : "int".toList ∈ m.classNames := by decide
  obtain ⟨hlength, hsame⟩ := (externalMethod?_grammar "([La/b;Lint;)[J").2.2 m _ _ hd h
  refine ⟨m, hd, h, hlength.symm, hint, fun he => ?_⟩
  exact (hsame.1 he "int".toList hint).notPrimitive .int rfl

end Descriptor

end KeepRules
