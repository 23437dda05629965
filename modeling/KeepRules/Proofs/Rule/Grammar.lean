import KeepRules.Descriptor
import KeepRules.Directive
import KeepRules.Identifier

/-! # The grammar of keep rules

The phrases that a keep rule is made of, as syntax trees. A phrase has the words that it is written
with (`words`), the conditions under which it is part of the language (`Valid`), and what it says:
the fields and methods of a member, the rule of a whole phrase (`RulePhrase.rule`). None of this
depends on how rules are read. -/

set_option autoImplicit false

namespace KeepRules

/-! ## Modifiers -/

/-- A modifier as it is written, forbidden when there is a `!` in front of it. -/
structure Mark where
  modifier : Modifier
  present : Bool
  deriving DecidableEq

namespace Mark

def word (m : Mark) : String :=
  if m.present then m.modifier.keyword else "!" ++ m.modifier.keyword

/-- No modifier occurs both with `!` and without. -/
def Consistent (marks : List Mark) : Prop := ∀ m : Modifier, ⟨m, true⟩ ∈ marks → ⟨m, false⟩ ∉ marks

end Mark

namespace Access

/-- What a run of modifiers asks for. -/
def ofMarks (marks : List Mark) : Access where
  required := .ofList ((marks.filter fun m => m.present).map Mark.modifier)
  forbidden := .ofList ((marks.filter fun m => !m.present).map Mark.modifier)

end Access

/-! ## Members -/

/-- A member after its modifiers. A constructor goes by `<init>` or by a name of its class. -/
inductive MemberForm where
  | any | anyField | anyMethod
  | field (type name : String)
  | method (type name : String) (arguments : List String)
  | constructor (word : String) (arguments : List String)
  deriving DecidableEq

namespace MemberForm

/-- A pattern that can be told from a modifier and from a wildcard. -/
structure IsType (word : String) : Prop where
  pattern : Identifier.isPattern word = true
  notModifier : Modifier.ofMemberKeyword? word = none
  notWildcard : word ∉ ["*", "<fields>", "<methods>"]

/-- The first word of the member. -/
def head : MemberForm → String
  | any => "*"
  | anyField => "<fields>"
  | anyMethod => "<methods>"
  | field type _ => type
  | method type _ _ => type
  | constructor word _ => word

/-- The words after the first. -/
def tail : MemberForm → List String
  | any | anyField | anyMethod => [";"]
  | field _ name => [name, ";"]
  | method _ name arguments => name :: "(" :: arguments.intersperse "," ++ [")", ";"]
  | constructor _ arguments => "(" :: arguments.intersperse "," ++ [")", ";"]

/-- Whether the member can stand, with these modifiers, in a rule for the class. -/
def Valid (className : String) (access : Access) : MemberForm → Prop
  | any => access.mentioned ⊆ .forField ∧ access.mentioned ⊆ .forMethod
  | anyField => access.mentioned ⊆ .forField
  | anyMethod => access.mentioned ⊆ .forMethod
  | field type name =>
    IsType type ∧ Identifier.isPattern name = true ∧ access.mentioned ⊆ .forField
  | method type name arguments =>
    IsType type ∧ Identifier.isPattern name = true ∧
      (∀ a ∈ arguments, Identifier.isPattern a = true) ∧ access.mentioned ⊆ .forMethod
  | constructor word arguments =>
    IsType word ∧ word ∈ [constructorName, className, ClassName.short className] ∧
      (∀ a ∈ arguments, Identifier.isPattern a = true) ∧ access.mentioned ⊆ .forMethod

def fields (access : Access) : MemberForm → List Member
  | any | anyField => [{ access := access }]
  | field type name =>
    [{ access := access, name := some name, descriptor := some (Descriptor.internalType type) }]
  | _ => []

def methods (access : Access) : MemberForm → List Member
  | any | anyMethod => [{ access := access }]
  | method type name arguments =>
    [{ access := access
       name := some name
       descriptor := some (Descriptor.internalMethod type arguments) }]
  | constructor _ arguments =>
    [{ access := access
       name := some constructorName
       descriptor := some (Descriptor.internalMethod "void" arguments) }]
  | _ => []

end MemberForm

structure MemberPhrase where
  marks : List Mark
  form : MemberForm
  deriving DecidableEq

namespace MemberPhrase

def access (m : MemberPhrase) : Access := .ofMarks m.marks

def words (m : MemberPhrase) : List String := m.marks.map Mark.word ++ m.form.head :: m.form.tail

structure Valid (className : String) (m : MemberPhrase) : Prop where
  marks : ∀ k ∈ m.marks, k.modifier ∈ ModifierSet.forMember
  consistent : Mark.Consistent m.marks
  form : m.form.Valid className m.access

def fields (m : MemberPhrase) : List Member := m.form.fields m.access

def methods (m : MemberPhrase) : List Member := m.form.methods m.access

end MemberPhrase

/-! ## Rules -/

/-- What the class name is preceded by; `interface` may be negated. -/
inductive ClassKind where
  | ofClass
  | ofInterface (present : Bool)
  deriving DecidableEq

namespace ClassKind

/-- The keyword `interface` is a modifier as well. -/
def marks : ClassKind → List Mark
  | ofClass => []
  | ofInterface present => [⟨.accInterface, present⟩]

def word : ClassKind → String
  | ofClass => "class"
  | ofInterface present => Mark.word ⟨.accInterface, present⟩

end ClassKind

/-- A rule after its keyword. -/
structure RulePhrase where
  marks : List Mark
  kind : ClassKind
  name : String
  /-- The keyword, which makes no difference, and the name of a superclass or an interface. -/
  parent : Option (String × String)
  newName : Option String
  /-- The members, if there is a block. -/
  block : Option (List MemberPhrase)
  deriving DecidableEq

namespace RulePhrase

def headWords (p : RulePhrase) : List String := p.marks.map Mark.word ++ [p.kind.word, p.name]

/-- An optional keyword with a name. -/
def clauseWords : Option (String × String) → List String
  | none => []
  | some (keyword, name) => [keyword, name]

def blockWords : Option (List MemberPhrase) → List String
  | none => []
  | some members => "\x7b" :: members.flatMap MemberPhrase.words ++ ["\x7d"]

def words (p : RulePhrase) : List String :=
  p.headWords ++ (clauseWords p.parent ++
    (clauseWords (p.newName.map fun name => ("as", name)) ++ blockWords p.block))

def members (p : RulePhrase) : List MemberPhrase := p.block.getD []

structure Valid (p : RulePhrase) : Prop where
  marks : ∀ m ∈ p.marks, m.modifier ∈ [.accPublic, .accFinal, .accAbstract]
  consistent : Mark.Consistent p.marks
  name : Identifier.isPattern p.name = true
  parent : ∀ keyword name, p.parent = some (keyword, name) →
    keyword ∈ ["extends", "implements"] ∧ Identifier.isPattern name = true
  newName : ∀ name, p.newName = some name → Identifier.isPattern name = true
  members : ∀ m ∈ p.members, m.Valid p.name

/-- The phrase is valid and opens the words; where it has no block to close it, the directive ends
with it. -/
structure Derives (p : RulePhrase) (ws rest : List String) : Prop where
  valid : p.Valid
  split : ws = p.words ++ rest
  ends : p.block = none → rest.head?.all Directive.starts = true

/-- What the phrase says. -/
def rule (p : RulePhrase) (intent : KeepIntent) (comments : Option String) : KeepRule where
  access := .ofMarks (p.marks ++ p.kind.marks)
  className := if p.name = "*" then none else some (ClassName.toInternal p.name)
  extendsName := p.parent.map fun q => ClassName.toInternal q.2
  asName := p.newName.map ClassName.toInternal
  intent := intent
  comments := comments
  fields := p.members.flatMap MemberPhrase.fields
  methods := p.members.flatMap MemberPhrase.methods

theorem words_ne_nil (p : RulePhrase) : p.words ≠ [] := by
  simp [words, headWords]

/-- A rule about a single class. -/
def bare (name : String) : RulePhrase where
  marks := []
  kind := .ofClass
  name := name
  parent := none
  newName := none
  block := none

theorem bare_valid {name : String} (h : Identifier.isPattern name = true) : (bare name).Valid where
  marks := by simp [bare]
  consistent := by simp [bare, Mark.Consistent]
  name := h
  parent := nofun
  newName := nofun
  members := by simp [bare, members]

end RulePhrase

/-! ## Modifiers and constraints -/

namespace Access

@[simp] theorem mem_required_ofMarks {m : Modifier} {marks : List Mark} :
    m ∈ (ofMarks marks).required ↔ ⟨m, true⟩ ∈ marks := by
  simp only [ofMarks, ModifierSet.mem_ofList, List.mem_map, List.mem_filter]
  constructor
  · rintro ⟨⟨n, b⟩, ⟨h, rfl⟩, rfl⟩
    exact h
  · exact fun h => ⟨_, ⟨h, rfl⟩, rfl⟩

@[simp] theorem mem_forbidden_ofMarks {m : Modifier} {marks : List Mark} :
    m ∈ (ofMarks marks).forbidden ↔ ⟨m, false⟩ ∈ marks := by
  simp only [ofMarks, ModifierSet.mem_ofList, List.mem_map, List.mem_filter]
  constructor
  · rintro ⟨⟨n, b⟩, ⟨h, hb⟩, rfl⟩
    have : b = false := by simpa using hb
    exact this ▸ h
  · exact fun h => ⟨_, ⟨h, rfl⟩, rfl⟩

theorem ofMarks_append (marks : List Mark) (m : Mark) :
    ofMarks (marks ++ [m]) = (ofMarks marks).add (.singleton m.modifier) m.present := by
  obtain ⟨n, present⟩ := m
  cases present with
  | true => exact ext_mem (fun k => by simp [add]) (fun k => by simp [add])
  | false => exact ext_mem (fun k => by simp [add]) (fun k => by simp [add])

theorem disjoint_ofMarks {marks : List Mark} :
    (ofMarks marks).Disjoint ↔ Mark.Consistent marks := by
  simp [disjoint_iff, Mark.Consistent]

/-- One more modifier is accepted exactly if the run stays consistent. -/
theorem require_ofMarks {marks : List Mark} {m : Mark} {b : Access} :
    (ofMarks marks).require (.singleton m.modifier) m.present = .ok b ↔
      b = ofMarks (marks ++ [m]) ∧ Mark.Consistent (marks ++ [m]) := by
  rw [require_eq_ok_iff, ← ofMarks_append]
  constructor
  · rintro ⟨rfl, h⟩
    exact ⟨rfl, disjoint_ofMarks.1 h⟩
  · rintro ⟨rfl, h⟩
    exact ⟨rfl, disjoint_ofMarks.2 h⟩

theorem isEmpty_ofMarks {marks : List Mark} : (ofMarks marks).isEmpty = marks.isEmpty := by
  cases marks with
  | nil => rfl
  | cons m marks =>
    obtain ⟨n, present⟩ := m
    rw [List.isEmpty_cons, isEmpty, Bool.and_eq_false_iff]
    cases present with
    | true =>
      left
      rw [beq_eq_false_iff_ne]
      intro h
      refine ModifierSet.notMem_empty n (h ▸ mem_required_ofMarks.2 List.mem_cons_self)
    | false =>
      right
      rw [beq_eq_false_iff_ne]
      intro h
      refine ModifierSet.notMem_empty n (h ▸ mem_forbidden_ofMarks.2 List.mem_cons_self)

theorem mem_mentioned_ofMarks {m : Modifier} {marks : List Mark} :
    m ∈ (ofMarks marks).mentioned ↔ ∃ b, ⟨m, b⟩ ∈ marks := by
  rw [mentioned, ModifierSet.mem_union, mem_required_ofMarks, mem_forbidden_ofMarks,
    Bool.exists_bool, or_comm]

end Access

theorem Mark.Consistent.of_append {u v : List Mark} (h : Mark.Consistent (u ++ v)) :
    Mark.Consistent u :=
  fun m ht hf => h m (List.mem_append_left v ht) (List.mem_append_left v hf)

theorem Modifier.mem_forClass {m : Modifier} :
    m ∈ ModifierSet.forClass ↔ m = .accInterface ∨ m ∈ [.accPublic, .accFinal, .accAbstract] := by
  simp only [ModifierSet.forClass, ModifierSet.mem_ofList, List.mem_cons, List.not_mem_nil,
    or_false]
  constructor
  · rintro (h | h | h | h) <;> simp [h]
  · rintro (h | h | h | h) <;> simp [h]

/-- The keyword `interface` ends a run of modifiers, so none before it is about it. -/
theorem RulePhrase.consistent_append_kind {marks : List Mark} (kind : ClassKind)
    (hm : ∀ m ∈ marks, m.modifier ∈ [.accPublic, .accFinal, .accAbstract])
    (hcons : Mark.Consistent marks) : Mark.Consistent (marks ++ kind.marks) := by
  cases kind with
  | ofClass => simpa [ClassKind.marks] using hcons
  | ofInterface present =>
    have hi : ∀ b, (⟨.accInterface, b⟩ : Mark) ∉ marks := by
      intro b hb
      have := hm _ hb
      simp at this
    intro m ht hf
    rw [ClassKind.marks, List.mem_append, List.mem_singleton] at ht hf
    rcases ht with ht | ht
    · rcases hf with hf | hf
      · exact hcons m ht hf
      · cases hf
        exact hi _ ht
    · cases ht
      exact hi false (by simpa using hf)

end KeepRules
