import KeepRules.Descriptor

/-! # The grammar of descriptors

Internal types and method descriptors as trees (`TypeForm`, `MethodForm`), each with its spelling
and with the type or signature that it stands for. A class name is kept as it is written; the type
has it in its external form, so that different trees may stand for one type.

* `TypeRef.readInternal_iff`, `Signature.ofInternal?_iff`: what is read is a tree's spelling.
* `TypeForm.spelling_append_inj`, `MethodForm.spelling_inj`: a text is spelled by one tree at
  most, and a type ends at one place only. -/

set_option autoImplicit false

namespace KeepRules

/-- An internal type as it is written. Any text without a semicolon can be a class name. -/
inductive TypeForm where
  | primitive (p : Primitive)
  | named (name : List Char) (closed : ';' ∉ name)
  | array (component : TypeForm)

/-- A method descriptor as it is written. -/
structure MethodForm where
  result : TypeForm
  arguments : List TypeForm

namespace TypeForm

def spelling : TypeForm → List Char
  | primitive p => [p.code]
  | named name _ => 'L' :: (name ++ [';'])
  | array component => '[' :: component.spelling

/-- What the form stands for. -/
def type : TypeForm → TypeRef
  | primitive p => { base := .primitive p, dimensions := 0 }
  | named name _ => { base := .named (ClassName.externalChars name), dimensions := 0 }
  | array component => { component.type with dimensions := component.type.dimensions + 1 }

/-- The class name that is written in the type. -/
def className? : TypeForm → Option (List Char)
  | primitive _ => none
  | named name _ => some name
  | array component => component.className?

end TypeForm

namespace MethodForm

def spelling (m : MethodForm) : List Char :=
  '(' :: (m.arguments.flatMap TypeForm.spelling ++ ')' :: m.result.spelling)

def signature (m : MethodForm) : Signature where
  result := m.result.type
  arguments := m.arguments.map TypeForm.type

def classNames (m : MethodForm) : List (List Char) :=
  (m.result :: m.arguments).filterMap TypeForm.className?

end MethodForm

/-! ## One tree for a text -/

theorem Primitive.code_injective {p q : Primitive} (h : p.code = q.code) : p = q := by
  have hp := ofCode?_code p
  rw [h, ofCode?_code q] at hp
  exact (Option.some.inj hp).symm

/-- What stands before the first mark is determined. -/
theorem Text.append_mark_inj {mark : Char} {s t u v : List Char} (hs : mark ∉ s) (ht : mark ∉ t)
    (h : s ++ mark :: u = t ++ mark :: v) : s = t ∧ u = v := by
  have hcut : cut mark (s ++ mark :: u) = some (s, u) := cut_eq_some_iff.2 ⟨rfl, hs⟩
  rw [h, cut_eq_some_iff.2 ⟨rfl, ht⟩] at hcut
  cases hcut
  exact ⟨rfl, rfl⟩

namespace TypeForm

theorem spelling_append_inj {f g : TypeForm} {u v : List Char}
    (h : f.spelling ++ u = g.spelling ++ v) : f = g ∧ u = v := by
  induction f generalizing g with
  | primitive p =>
    obtain ⟨hbracket, hclass, -⟩ := p.code_ne
    cases g with
    | primitive q =>
      obtain ⟨hc, hu⟩ := List.cons.inj h
      exact ⟨congrArg primitive (Primitive.code_injective hc), hu⟩
    | named name closed => exact absurd (List.cons.inj h).1 hclass
    | array component => exact absurd (List.cons.inj h).1 hbracket
  | named name closed =>
    cases g with
    | primitive q => exact absurd (List.cons.inj h).1.symm q.code_ne.2.1
    | named name' closed' =>
      have htail := (List.cons.inj h).2
      simp only [List.append_eq, List.append_assoc, List.singleton_append] at htail
      obtain ⟨rfl, rfl⟩ := Text.append_mark_inj closed closed' htail
      exact ⟨rfl, rfl⟩
    | array component => exact absurd (List.cons.inj h).1 (by decide)
  | array component ih =>
    cases g with
    | primitive q => exact absurd (List.cons.inj h).1.symm q.code_ne.1
    | named name closed => exact absurd (List.cons.inj h).1 (by decide)
    | array component' =>
      obtain ⟨rfl, rfl⟩ := ih (List.cons.inj h).2
      exact ⟨rfl, rfl⟩

theorem spelling_inj {f g : TypeForm} (h : f.spelling = g.spelling) : f = g := by
  have h' : f.spelling ++ [] = g.spelling ++ [] := by rw [h]
  exact (spelling_append_inj h').1

/-- A type never starts like the end of a list of arguments. -/
theorem head?_spelling_ne (f : TypeForm) (rest : List Char) :
    (f.spelling ++ rest).head? ≠ some ')' := by
  cases f with
  | primitive p =>
    have hp := p.code_ne.2.2
    simpa [spelling] using hp
  | named name closed => simp [spelling]
  | array component => simp [spelling]

end TypeForm

namespace MethodForm

theorem arguments_append_inj {fs gs : List TypeForm} {u v : List Char}
    (h : fs.flatMap TypeForm.spelling ++ ')' :: u = gs.flatMap TypeForm.spelling ++ ')' :: v) :
    fs = gs ∧ u = v := by
  induction fs generalizing gs with
  | nil =>
    cases gs with
    | nil => exact ⟨rfl, (List.cons.inj h).2⟩
    | cons g gs =>
      rw [List.flatMap_cons, List.append_assoc] at h
      exact absurd (congrArg List.head? h).symm (g.head?_spelling_ne _)
  | cons f fs ih =>
    rw [List.flatMap_cons, List.append_assoc] at h
    cases gs with
    | nil => exact absurd (congrArg List.head? h) (f.head?_spelling_ne _)
    | cons g gs =>
      rw [List.flatMap_cons, List.append_assoc] at h
      obtain ⟨rfl, htail⟩ := TypeForm.spelling_append_inj h
      obtain ⟨rfl, rfl⟩ := ih htail
      exact ⟨rfl, rfl⟩

theorem spelling_inj {m n : MethodForm} (h : m.spelling = n.spelling) : m = n := by
  obtain ⟨result, arguments⟩ := m
  obtain ⟨result', arguments'⟩ := n
  obtain ⟨rfl, hr⟩ := arguments_append_inj (List.cons.inj h).2
  obtain rfl := TypeForm.spelling_inj hr
  rfl

end MethodForm

/-! ## Reading -/

namespace TypeRef

theorem readInternal_spelling (f : TypeForm) (rest : List Char) :
    readInternal (f.spelling ++ rest) = some (f.type, rest) := by
  induction f with
  | primitive p =>
    obtain ⟨hbracket, hclass, -⟩ := p.code_ne
    show readInternal (p.code :: rest) = _
    rw [readInternal, if_neg hbracket, if_neg hclass, Primitive.ofCode?_code]
    rfl
  | named name closed =>
    have hcut : Text.cut ';' (name ++ ';' :: rest) = some (name, rest) :=
      Text.cut_eq_some_iff.2 ⟨rfl, closed⟩
    show readInternal ('L' :: (name ++ [';'] ++ rest)) = _
    rw [List.append_assoc, List.singleton_append, readInternal, if_neg (by decide), if_pos rfl,
      hcut]
    rfl
  | array component ih =>
    show readInternal ('[' :: (component.spelling ++ rest)) = _
    rw [readInternal, if_pos rfl, ih]
    rfl

theorem exists_of_readInternal {s rest : List Char} {t : TypeRef}
    (h : readInternal s = some (t, rest)) :
    ∃ f : TypeForm, s = f.spelling ++ rest ∧ f.type = t := by
  induction s generalizing t with
  | nil => cases h
  | cons c s ih =>
    rw [readInternal] at h
    split at h
    · next hc =>
      obtain ⟨⟨u, r⟩, hread, he⟩ := Option.map_eq_some_iff.1 h
      cases he
      obtain ⟨f, hs, rfl⟩ := ih hread
      exact ⟨.array f, by rw [hc, hs]; rfl, rfl⟩
    · split at h
      · next hc =>
        obtain ⟨⟨name, r⟩, hcut, he⟩ := Option.map_eq_some_iff.1 h
        cases he
        obtain ⟨hs, closed⟩ := Text.cut_eq_some_iff.1 hcut
        exact ⟨.named name closed, by rw [hc, hs]; simp [TypeForm.spelling], rfl⟩
      · obtain ⟨p, hp, he⟩ := Option.map_eq_some_iff.1 h
        cases he
        exact ⟨.primitive p, by rw [← Primitive.code_of_ofCode? hp]; rfl, rfl⟩

/-- One type is read off the front exactly if the text starts with one. -/
theorem readInternal_iff {s rest : List Char} {t : TypeRef} :
    readInternal s = some (t, rest) ↔ ∃ f : TypeForm, s = f.spelling ++ rest ∧ f.type = t := by
  refine ⟨exists_of_readInternal, ?_⟩
  rintro ⟨f, rfl, rfl⟩
  exact readInternal_spelling f rest

/-- A text is read as a type exactly if it is one. -/
theorem ofInternal?_iff {s : List Char} {t : TypeRef} :
    ofInternal? s = some t ↔ ∃ f : TypeForm, s = f.spelling ∧ f.type = t := by
  have hwhole : ofInternal? s = some t ↔ readInternal s = some (t, []) := by
    unfold ofInternal?
    split
    · next u h => simp [h]
    · next h =>
      refine ⟨nofun, fun hr => ?_⟩
      exact absurd hr (h t)
  rw [hwhole, readInternal_iff]
  simp only [List.append_nil]

end TypeRef

namespace Signature

theorem readArguments_spelling (result : TypeForm) (arguments : List TypeForm) :
    readArguments (arguments.flatMap TypeForm.spelling ++ ')' :: result.spelling) =
      some { result := result.type, arguments := arguments.map TypeForm.type } := by
  induction arguments with
  | nil =>
    have hresult : TypeRef.ofInternal? result.spelling = some result.type :=
      TypeRef.ofInternal?_iff.2 ⟨result, rfl, rfl⟩
    rw [List.flatMap_nil, List.nil_append, readArguments, if_pos List.head?_cons, List.tail_cons,
      hresult]
    rfl
  | cons f arguments ih =>
    have hread := TypeRef.readInternal_spelling f
      (arguments.flatMap TypeForm.spelling ++ ')' :: result.spelling)
    rw [List.flatMap_cons, List.append_assoc, readArguments, if_neg (f.head?_spelling_ne _)]
    split
    · next h => rw [hread] at h; cases h
    · next h =>
      rw [hread] at h
      cases h
      rw [ih]
      rfl

theorem exists_of_readArguments {s : List Char} {sig : Signature} (h : readArguments s = some sig) :
    ∃ m : MethodForm, '(' :: s = m.spelling ∧ m.signature = sig := by
  fun_induction readArguments s generalizing sig with
  | case1 s hs =>
    obtain ⟨t, ht, rfl⟩ := Option.map_eq_some_iff.1 h
    obtain ⟨f, hf, rfl⟩ := TypeRef.ofInternal?_iff.1 ht
    obtain ⟨tail, rfl⟩ := List.head?_eq_some_iff.1 hs
    rw [List.tail_cons] at hf
    exact ⟨⟨f, []⟩, by rw [hf]; rfl, rfl⟩
  | case2 => cases h
  | case3 s hs t rest hread ih =>
    obtain ⟨u, hu, rfl⟩ := Option.map_eq_some_iff.1 h
    obtain ⟨f, rfl, rfl⟩ := TypeRef.exists_of_readInternal hread
    obtain ⟨⟨result, arguments⟩, hm, rfl⟩ := ih hu
    have hrest := (List.cons.inj hm).2
    refine ⟨⟨result, f :: arguments⟩, ?_, rfl⟩
    rw [hrest]
    simp [MethodForm.spelling]

/-- A text is read as a method descriptor exactly if it is one. -/
theorem ofInternal?_iff {s : List Char} {sig : Signature} :
    ofInternal? s = some sig ↔ ∃ m : MethodForm, s = m.spelling ∧ m.signature = sig := by
  constructor
  · intro h
    unfold ofInternal? at h
    split at h
    · exact exists_of_readArguments h
    · cases h
  · rintro ⟨m, rfl, rfl⟩
    exact readArguments_spelling m.result m.arguments

end Signature

end KeepRules
