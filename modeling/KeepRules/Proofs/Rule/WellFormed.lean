import KeepRules.Proofs.Descriptor
import KeepRules.Proofs.Rule.Grammar
import KeepRules.Proofs.Words

/-! # Well-formed keep rules

`KeepRule.Printable` says which rules can be written so that they are read back, in terms of the
words they are written with; `KeepRule.WellFormed` says what can be relied on in a rule without
knowing about words. Both are about every name, type and modifier of the rule.

* `RulePhrase.printable`: what a valid phrase says is printable.
* `KeepRule.Printable.wellFormed`: what is printable is well formed. -/

set_option autoImplicit false

namespace KeepRules

/-! ## Words of rules -/

namespace Identifier

/-- A pattern that a line can hold as one word. -/
structure IsPatternWord (word : String) : Prop where
  ne_empty : word ≠ ""
  notBlank : ∀ c ∈ word.toList, Text.isBlank c = false
  pattern : isPattern word = true

instance (word : String) : Decidable (IsPatternWord word) :=
  decidable_of_iff (word ≠ "" ∧ (word.toList.all fun c => !Text.isBlank c) = true ∧
    isPattern word = true)
    ⟨fun h => ⟨h.1, by simpa using h.2.1, h.2.2⟩,
      fun h => ⟨h.ne_empty, by simpa using h.notBlank, h.pattern⟩⟩

/-- Some control characters count as parts of identifiers although they are blank. -/
example : isPattern "\u0085" = true ∧ ¬IsPatternWord "\u0085" := by decide

/-- A pattern with at least one character. -/
def IsNonemptyPattern (word : String) : Prop := word ≠ "" ∧ isPattern word = true

theorem IsPatternWord.nonempty {w : String} (h : IsPatternWord w) : IsNonemptyPattern w :=
  ⟨h.ne_empty, h.pattern⟩

theorem isPatternWord_of_isWord {separator : Char} {w : String} (h : Word.IsWord separator w)
    (hp : isPattern w = true) : IsPatternWord w :=
  ⟨h.ne_empty, h.notBlank, hp⟩

theorem readable_of_isPattern {w : String} (h : isPattern w = true) :
    Descriptor.Readable w.toList :=
  ⟨notMem_of_isPattern h (by decide), notMem_of_isPattern h (by decide)⟩

end Identifier

open Identifier (IsPatternWord IsNonemptyPattern)

namespace ClassName

/-- An internal name whose external form is a word. -/
structure IsWritable (name : String) : Prop where
  dotless : '.' ∉ name.toList
  word : IsPatternWord (toExternal name)

/-- An internal name of a class, or a pattern for such names. -/
structure IsInternal (name : String) : Prop where
  ne_empty : name ≠ ""
  dotless : '.' ∉ name.toList
  chars : ∀ c ∈ name.toList, c = '/' ∨ Identifier.isPatternChar c = true

theorem toList_toExternal (name : String) :
    (toExternal name).toList = externalChars name.toList := by
  rw [toExternal, String.toList_ofList]

theorem dot_notMem_toInternal (name : String) : '.' ∉ (toInternal name).toList := by
  rw [toInternal, String.toList_ofList]
  exact dot_notMem_internalChars _

theorem toExternal_toInternal {name : String} (h : '/' ∉ name.toList) :
    toExternal (toInternal name) = name := by
  rw [toExternal, toInternal, String.toList_ofList, externalChars_internalChars h,
    String.ofList_toList]

theorem toInternal_toExternal {name : String} (h : '.' ∉ name.toList) :
    toInternal (toExternal name) = name := by
  rw [toExternal, toInternal, String.toList_ofList, internalChars_externalChars h,
    String.ofList_toList]

theorem isWritable_toInternal {name : String} (h : IsPatternWord name) :
    IsWritable (toInternal name) := by
  have hs : '/' ∉ name.toList := Identifier.notMem_of_isPattern h.pattern (by decide)
  exact ⟨dot_notMem_toInternal name, by rw [toExternal_toInternal hs]; exact h⟩

theorem IsWritable.isInternal {name : String} (h : IsWritable name) : IsInternal name := by
  refine ⟨?_, h.dotless, fun c hc => ?_⟩
  · rintro rfl
    exact h.word.ne_empty (by decide)
  · by_cases hs : c = '/'
    · exact .inl hs
    · right
      apply (Identifier.isPattern_iff _).1 h.word.pattern
      rw [toList_toExternal]
      exact List.mem_map.2 ⟨c, hc, if_neg hs⟩

end ClassName

/-! ## Members -/

namespace Descriptor

/-- The descriptor of a field whose type can be written. -/
def IsFieldWritable (d : String) : Prop :=
  ∃ type, IsPatternWord type ∧ MemberForm.IsType type ∧ d = internalType type

/-- The descriptor of a method whose types can be written. -/
def IsMethodWritable (d : String) : Prop :=
  ∃ result arguments, IsPatternWord result ∧ MemberForm.IsType result ∧
    (∀ a ∈ arguments, IsPatternWord a) ∧ d = internalMethod result arguments

/-- The descriptor is read as a type, from which it comes. -/
def IsFieldType (d : String) : Prop :=
  ∃ type, externalType? d = some type ∧ IsPatternWord type ∧ internalType type = d

/-- The descriptor is read as types, from which it comes. -/
def IsMethodType (d : String) : Prop :=
  ∃ result arguments, externalMethod? d = some (result, arguments) ∧ IsPatternWord result ∧
    (∀ a ∈ arguments, IsPatternWord a) ∧ internalMethod result arguments = d

theorem IsFieldWritable.isFieldType {d : String} (h : IsFieldWritable d) : IsFieldType d := by
  obtain ⟨type, hw, -, rfl⟩ := h
  have hr := Identifier.readable_of_isPattern hw.pattern
  exact ⟨type, externalType?_of_readable hr, hw, rfl⟩

theorem IsMethodWritable.isMethodType {d : String} (h : IsMethodWritable d) : IsMethodType d := by
  obtain ⟨result, arguments, hw, -, ha, rfl⟩ := h
  have hr := Identifier.readable_of_isPattern hw.pattern
  have hargs : ∀ a ∈ arguments, Readable a.toList :=
    fun a hm => Identifier.readable_of_isPattern (ha a hm).pattern
  exact ⟨result, arguments, externalMethod?_of_readable hr hargs, hw, ha, rfl⟩

end Descriptor

/-- Modifiers that can stand together and belong where they stand. -/
structure Access.Proper (allowed : ModifierSet) (a : Access) : Prop where
  disjoint : a.Disjoint
  allowed : a.mentioned ⊆ allowed

/-- A member that stands for any, or has both a name and a descriptor of the given kinds. -/
structure Member.Proper (allowed : ModifierSet) (IsName IsDescriptor : String → Prop)
    (m : Member) : Prop where
  access : m.access.Proper allowed
  named : (m.name = none ∧ m.descriptor = none) ∨
    ∃ name d, m.name = some name ∧ m.descriptor = some d ∧ IsName name ∧ IsDescriptor d

theorem Member.Proper.mono {allowed : ModifierSet} {N N' D D' : String → Prop} {m : Member}
    (h : m.Proper allowed N D) (hn : ∀ name, N name → N' name) (hd : ∀ d, D d → D' d) :
    m.Proper allowed N' D' := by
  refine ⟨h.access, h.named.imp_right ?_⟩
  rintro ⟨name, d, h₁, h₂, h₃, h₄⟩
  exact ⟨name, d, h₁, h₂, hn name h₃, hd d h₄⟩

/-! ## Rules -/

/-- What a rule needs for being written so that it is read back, apart from its comments. -/
structure KeepRule.Printable (r : KeepRule) : Prop where
  intent : r.intent ∈ KeepIntent.all
  access : r.access.Proper .forClass
  className : ∀ name, r.className = some name → ClassName.IsWritable name
  notAny : r.className ≠ some "*"
  extendsName : ∀ name, r.extendsName = some name → ClassName.IsWritable name
  asName : ∀ name, r.asName = some name → ClassName.IsWritable name
  fields : ∀ m ∈ r.fields, m.Proper .forField IsPatternWord Descriptor.IsFieldWritable
  methods : ∀ m ∈ r.methods, m.Proper .forMethod IsPatternWord Descriptor.IsMethodWritable

/-- What can be relied on in a rule. -/
structure KeepRule.WellFormed (r : KeepRule) : Prop where
  intent : r.intent ∈ KeepIntent.all
  access : r.access.Proper .forClass
  className : ∀ name, r.className = some name → ClassName.IsInternal name
  notAny : r.className ≠ some "*"
  extendsName : ∀ name, r.extendsName = some name → ClassName.IsInternal name
  asName : ∀ name, r.asName = some name → ClassName.IsInternal name
  fields : ∀ m ∈ r.fields, m.Proper .forField IsNonemptyPattern Descriptor.IsFieldType
  methods : ∀ m ∈ r.methods, m.Proper .forMethod IsNonemptyPattern Descriptor.IsMethodType

theorem KeepRule.Printable.wellFormed {r : KeepRule} (h : r.Printable) : r.WellFormed where
  intent := h.intent
  access := h.access
  className name hn := (h.className name hn).isInternal
  notAny := h.notAny
  extendsName name hn := (h.extendsName name hn).isInternal
  asName name hn := (h.asName name hn).isInternal
  fields m hm := (h.fields m hm).mono (fun _ => IsPatternWord.nonempty) fun _ hd => hd.isFieldType
  methods m hm :=
    (h.methods m hm).mono (fun _ => IsPatternWord.nonempty) fun _ hd => hd.isMethodType

/-! ## Phrases -/

namespace MemberPhrase

theorem proper_access {className : String} {m : MemberPhrase} {allowed : ModifierSet}
    (hm : m.Valid className) (ha : m.access.mentioned ⊆ allowed) : m.access.Proper allowed :=
  ⟨Access.disjoint_ofMarks.2 hm.consistent, ha⟩

theorem proper_fields {separator : Char} {className : String} {m : MemberPhrase}
    (hm : m.Valid className) (hw : ∀ w ∈ m.words, Word.IsWord separator w) :
    ∀ f ∈ m.fields, f.Proper .forField IsPatternWord Descriptor.IsFieldWritable := by
  have proper : m.access.mentioned ⊆ .forField → m.access.Proper .forField := proper_access hm
  intro f hf
  obtain ⟨marks, form⟩ := m
  have hform := hm.form
  cases form with
  | any =>
    obtain rfl := List.mem_singleton.1 hf
    exact ⟨proper hform.1, .inl ⟨rfl, rfl⟩⟩
  | anyField =>
    obtain rfl := List.mem_singleton.1 hf
    exact ⟨proper hform, .inl ⟨rfl, rfl⟩⟩
  | anyMethod => cases hf
  | field type name =>
    obtain rfl := List.mem_singleton.1 hf
    obtain ⟨ht, hn, ha⟩ := hform
    have htype := hw type (by simp [words, MemberForm.head])
    have hname := hw name (by simp [words, MemberForm.tail])
    exact ⟨proper ha, .inr ⟨name, _, rfl, rfl, Identifier.isPatternWord_of_isWord hname hn,
      type, Identifier.isPatternWord_of_isWord htype ht.pattern, ht, rfl⟩⟩
  | method type name arguments => cases hf
  | constructor word arguments => cases hf

theorem isType_void : MemberForm.IsType "void" := ⟨by decide, by decide, by decide⟩

theorem proper_methods {separator : Char} {className : String} {m : MemberPhrase}
    (hm : m.Valid className) (hw : ∀ w ∈ m.words, Word.IsWord separator w) :
    ∀ f ∈ m.methods, f.Proper .forMethod IsPatternWord Descriptor.IsMethodWritable := by
  have proper : m.access.mentioned ⊆ .forMethod → m.access.Proper .forMethod := proper_access hm
  intro f hf
  obtain ⟨marks, form⟩ := m
  have hform := hm.form
  cases form with
  | any =>
    obtain rfl := List.mem_singleton.1 hf
    exact ⟨proper hform.2, .inl ⟨rfl, rfl⟩⟩
  | anyField => cases hf
  | anyMethod =>
    obtain rfl := List.mem_singleton.1 hf
    exact ⟨proper hform, .inl ⟨rfl, rfl⟩⟩
  | field type name => cases hf
  | method type name arguments =>
    obtain rfl := List.mem_singleton.1 hf
    obtain ⟨ht, hn, hargs, ha⟩ := hform
    have htype := hw type (by simp [words, MemberForm.head])
    have hname := hw name (by simp [words, MemberForm.tail])
    refine ⟨proper ha, .inr ⟨name, _, rfl, rfl, Identifier.isPatternWord_of_isWord hname hn,
      type, arguments, Identifier.isPatternWord_of_isWord htype ht.pattern, ht, ?_, rfl⟩⟩
    intro a hmem
    have harg := hw a (by simp [words, MemberForm.tail, Word.mem_intersperse hmem])
    exact Identifier.isPatternWord_of_isWord harg (hargs a hmem)
  | constructor word arguments =>
    obtain rfl := List.mem_singleton.1 hf
    obtain ⟨-, -, hargs, ha⟩ := hform
    refine ⟨proper ha, .inr ⟨constructorName, _, rfl, rfl, ?_, "void", arguments, ?_, isType_void,
      ?_, rfl⟩⟩
    · decide
    · decide
    intro a hmem
    have harg := hw a (by simp [words, MemberForm.tail, Word.mem_intersperse hmem])
    exact Identifier.isPatternWord_of_isWord harg (hargs a hmem)

end MemberPhrase

namespace RulePhrase

theorem mem_words_of_member {p : RulePhrase} {m : MemberPhrase} (hm : m ∈ p.members) {w : String}
    (hw : w ∈ m.words) : w ∈ p.words := by
  unfold members at hm
  cases hb : p.block with
  | none => simp [hb] at hm
  | some ms =>
    rw [hb] at hm
    have hmem : w ∈ ms.flatMap MemberPhrase.words := List.mem_flatMap.2 ⟨m, hm, hw⟩
    simp [words, blockWords, hb, hmem]

theorem proper_access {p : RulePhrase} (h : p.Valid) :
    (Access.ofMarks (p.marks ++ p.kind.marks)).Proper .forClass := by
  refine ⟨Access.disjoint_ofMarks.2 (consistent_append_kind p.kind h.marks h.consistent), ?_⟩
  apply ModifierSet.subset_iff.2
  intro m hm
  obtain ⟨b, hb⟩ := Access.mem_mentioned_ofMarks.1 hm
  apply Modifier.mem_forClass.2
  rcases List.mem_append.1 hb with hb | hb
  · exact .inr (h.marks _ hb)
  · left
    cases hk : p.kind with
    | ofClass => simp [hk, ClassKind.marks] at hb
    | ofInterface present =>
      rw [hk, ClassKind.marks, List.mem_singleton] at hb
      exact congrArg Mark.modifier hb

theorem printable {separator : Char} {p : RulePhrase} {intent : KeepIntent}
    {comments : Option String} (h : p.Valid) (hw : ∀ w ∈ p.words, Word.IsWord separator w)
    (hi : intent ∈ KeepIntent.all) : (p.rule intent comments).Printable where
  intent := hi
  access := proper_access h
  className name hn := by
    simp only [rule] at hn
    split at hn
    · cases hn
    · cases hn
      have hword := hw p.name (by simp [words, headWords])
      exact ClassName.isWritable_toInternal (Identifier.isPatternWord_of_isWord hword h.name)
  notAny := by
    simp only [rule]
    split
    · exact (Option.some_ne_none _).symm
    · next hne =>
      intro he
      have hs : '/' ∉ p.name.toList := Identifier.notMem_of_isPattern h.name (by decide)
      rw [← ClassName.toExternal_toInternal hs, Option.some.inj he] at hne
      exact hne (by decide)
  extendsName name hn := by
    obtain ⟨⟨keyword, parent⟩, hp, rfl⟩ := Option.map_eq_some_iff.1 hn
    have hword := hw parent (by simp [words, clauseWords, hp])
    have hpat := (h.parent keyword parent hp).2
    exact ClassName.isWritable_toInternal (Identifier.isPatternWord_of_isWord hword hpat)
  asName name hn := by
    obtain ⟨newName, hp, rfl⟩ := Option.map_eq_some_iff.1 hn
    have hword := hw newName (by simp [words, clauseWords, hp])
    have hpat := h.newName newName hp
    exact ClassName.isWritable_toInternal (Identifier.isPatternWord_of_isWord hword hpat)
  fields f hf := by
    obtain ⟨m, hm, hf⟩ := List.mem_flatMap.1 hf
    exact m.proper_fields (h.members m hm) (fun w hw' => hw w (mem_words_of_member hm hw')) f hf
  methods f hf := by
    obtain ⟨m, hm, hf⟩ := List.mem_flatMap.1 hf
    exact m.proper_methods (h.members m hm) (fun w hw' => hw w (mem_words_of_member hm hw')) f hf

end RulePhrase

end KeepRules
