/-! # Access modifiers

The twelve modifiers of classes and class members, and sets of them as twelve-bit access words:
the bit of a modifier is the one it has in class files. Keywords are always listed in the order of
the bits. -/

set_option autoImplicit false

namespace KeepRules

inductive Modifier where
  | accPublic | accPrivate | accProtected | accStatic | accFinal | accSynchronized
  | accVolatile | accTransient | accNative | accInterface | accAbstract | accStrict
  deriving DecidableEq

namespace Modifier

def all : List Modifier :=
  [accPublic, accPrivate, accProtected, accStatic, accFinal, accSynchronized,
   accVolatile, accTransient, accNative, accInterface, accAbstract, accStrict]

/-- The position of the modifier's bit in an access word. -/
def bit : Modifier → Fin 12
  | accPublic => 0
  | accPrivate => 1
  | accProtected => 2
  | accStatic => 3
  | accFinal => 4
  | accSynchronized => 5
  | accVolatile => 6
  | accTransient => 7
  | accNative => 8
  | accInterface => 9
  | accAbstract => 10
  | accStrict => 11

def keyword : Modifier → String
  | accPublic => "public"
  | accPrivate => "private"
  | accProtected => "protected"
  | accStatic => "static"
  | accFinal => "final"
  | accSynchronized => "synchronized"
  | accVolatile => "volatile"
  | accTransient => "transient"
  | accNative => "native"
  | accInterface => "interface"
  | accAbstract => "abstract"
  | accStrict => "strictfp"

def ofKeyword? (word : String) : Option Modifier := all.find? fun m => m.keyword == word

theorem mem_all (m : Modifier) : m ∈ all := by cases m <;> decide

theorem ofKeyword?_keyword (m : Modifier) : ofKeyword? m.keyword = some m := by
  cases m <;> decide

theorem keyword_of_ofKeyword? {word : String} {m : Modifier} (h : ofKeyword? word = some m) :
    m.keyword = word := by
  simpa using List.find?_some h

end Modifier

/-- A set of modifiers, as an access word. -/
structure ModifierSet where
  word : BitVec 12
  deriving DecidableEq

namespace ModifierSet

instance : EmptyCollection ModifierSet := ⟨⟨0#12⟩⟩
instance : Union ModifierSet := ⟨fun s t => ⟨s.word ||| t.word⟩⟩
instance : Inter ModifierSet := ⟨fun s t => ⟨s.word &&& t.word⟩⟩
instance : SDiff ModifierSet := ⟨fun s t => ⟨s.word &&& ~~~t.word⟩⟩
instance : Membership Modifier ModifierSet := ⟨fun s m => s.word.getLsbD m.bit = true⟩
instance : HasSubset ModifierSet := ⟨fun s t => s \ t = ∅⟩

instance (m : Modifier) (s : ModifierSet) : Decidable (m ∈ s) :=
  inferInstanceAs (Decidable (s.word.getLsbD m.bit = true))

instance (s t : ModifierSet) : Decidable (s ⊆ t) := inferInstanceAs (Decidable (s \ t = ∅))

def singleton (m : Modifier) : ModifierSet := ⟨BitVec.twoPow 12 m.bit⟩

def ofList (ms : List Modifier) : ModifierSet := ms.foldr (fun m s => singleton m ∪ s) ∅

/-- The modifiers of the set in canonical order. -/
def toList (s : ModifierSet) : List Modifier := Modifier.all.filter (· ∈ s)

def keywords (s : ModifierSet) : List String := s.toList.map Modifier.keyword

/-- How the set is shown: its keywords with spaces in between. -/
def display (s : ModifierSet) : String := " ".intercalate s.keywords

example : (ofList [.accFinal, .accPublic]).display = "public final" := by decide

/-- The set with the given access word, if that has no bit beyond the twelve. -/
def ofNat? (n : Nat) : Option ModifierSet := if n < 4096 then some ⟨BitVec.ofNat 12 n⟩ else none

def toNat (s : ModifierSet) : Nat := s.word.toNat

/-- What may stand in front of `class` or `interface`. -/
def forClass : ModifierSet := ofList [.accPublic, .accFinal, .accInterface, .accAbstract]

def forField : ModifierSet :=
  ofList [.accPublic, .accPrivate, .accProtected, .accStatic, .accFinal, .accVolatile,
    .accTransient]

def forMethod : ModifierSet :=
  ofList [.accPublic, .accPrivate, .accProtected, .accStatic, .accFinal, .accSynchronized,
    .accNative, .accAbstract, .accStrict]

/-- What a field or a method may carry. -/
def forMember : ModifierSet := forField ∪ forMethod

theorem ext_word {s t : ModifierSet} (h : s.word = t.word) : s = t := by
  cases s; cases t; simp_all

theorem exists_bit (i : Nat) (h : i < 12) : ∃ m : Modifier, m.bit.val = i := by
  have : ∀ i : Fin 12, ∃ m ∈ Modifier.all, m.bit = i := by decide
  obtain ⟨m, -, hm⟩ := this ⟨i, h⟩
  exact ⟨m, by rw [hm]⟩

/-- A set is determined by its members. -/
theorem ext {s t : ModifierSet} (h : ∀ m : Modifier, m ∈ s ↔ m ∈ t) : s = t := by
  apply ext_word
  apply BitVec.eq_of_getLsbD_eq
  intro i hi
  obtain ⟨m, hm⟩ := exists_bit i hi
  have := h m
  simp only [Membership.mem, hm] at this
  exact Bool.eq_iff_iff.2 this

@[simp] theorem notMem_empty (m : Modifier) : ¬ m ∈ (∅ : ModifierSet) := by
  simp [Membership.mem, EmptyCollection.emptyCollection]

@[simp] theorem mem_union (m : Modifier) (s t : ModifierSet) : m ∈ s ∪ t ↔ m ∈ s ∨ m ∈ t := by
  simp [Membership.mem, Union.union]

@[simp] theorem mem_inter (m : Modifier) (s t : ModifierSet) : m ∈ s ∩ t ↔ m ∈ s ∧ m ∈ t := by
  simp [Membership.mem, Inter.inter]

@[simp] theorem mem_sdiff (m : Modifier) (s t : ModifierSet) : m ∈ s \ t ↔ m ∈ s ∧ ¬ m ∈ t := by
  simp [Membership.mem, SDiff.sdiff]

@[simp] theorem mem_singleton (m n : Modifier) : m ∈ singleton n ↔ m = n := by
  have : ∀ m ∈ Modifier.all, ∀ n ∈ Modifier.all, m ∈ singleton n ↔ m = n := by decide
  exact this m m.mem_all n n.mem_all

@[simp] theorem mem_ofList {m : Modifier} {ms : List Modifier} : m ∈ ofList ms ↔ m ∈ ms := by
  induction ms with
  | nil => exact ⟨fun h => absurd h (notMem_empty m), nofun⟩
  | cons n ms ih =>
    show m ∈ singleton n ∪ ofList ms ↔ _
    rw [mem_union, mem_singleton, ih, List.mem_cons]

theorem subset_iff {s t : ModifierSet} : s ⊆ t ↔ ∀ m : Modifier, m ∈ s → m ∈ t := by
  constructor
  · intro h m hm
    have hd : ¬ m ∈ s \ t := by rw [show s \ t = ∅ from h]; simp
    simpa [hm] using hd
  · intro h
    show s \ t = ∅
    exact ext fun m => by simpa using h m

theorem mem_toList {s : ModifierSet} {m : Modifier} : m ∈ s.toList ↔ m ∈ s := by
  simp [toList, m.mem_all]

theorem ofNat?_toNat (s : ModifierSet) : ofNat? s.toNat = some s := by
  have : s.word.toNat < 4096 := s.word.isLt
  simp [ofNat?, toNat, this]

end ModifierSet

namespace Modifier

/-- The class modifier with this keyword. -/
def ofClassKeyword? (word : String) : Option Modifier :=
  (ofKeyword? word).filter (· ∈ ModifierSet.forClass)

/-- The field or method modifier with this keyword. -/
def ofMemberKeyword? (word : String) : Option Modifier :=
  (ofKeyword? word).filter (· ∈ ModifierSet.forMember)

end Modifier

end KeepRules
