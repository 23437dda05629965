import KeepRules.Modifier

/-! # Access constraints

The modifiers that a class or a member must have and those that it must not have. Constraints are
built by `require`, which refuses a step after which a modifier would be both. -/

set_option autoImplicit false

namespace KeepRules

/-- Modifiers used where they do not belong. -/
inductive ModifierError where
  | conflicting (modifiers : ModifierSet)
  | notForField (modifiers : ModifierSet)
  | notForMethod (modifiers : ModifierSet)
  deriving DecidableEq

namespace ModifierError

def message : ModifierError → String
  | conflicting s => "Conflicting access modifiers for '" ++ ", ".intercalate s.keywords ++ "'"
  | notForField s =>
    "Invalid method access modifier '" ++ ", ".intercalate s.keywords ++ "' for field"
  | notForMethod s =>
    "Invalid field access modifier '" ++ ", ".intercalate s.keywords ++ "' for method"

end ModifierError

structure Access where
  required : ModifierSet := ∅
  forbidden : ModifierSet := ∅
  deriving DecidableEq

namespace Access

/-- No modifier is both required and forbidden. -/
def Disjoint (a : Access) : Prop := a.required ∩ a.forbidden = ∅

instance (a : Access) : Decidable a.Disjoint :=
  inferInstanceAs (Decidable (a.required ∩ a.forbidden = ∅))

def isEmpty (a : Access) : Bool := a.required == ∅ && a.forbidden == ∅

/-- Every modifier required or forbidden. -/
def mentioned (a : Access) : ModifierSet := a.required ∪ a.forbidden

/-- The constraint with the modifiers added to the required ones, or to the forbidden ones. -/
def add (a : Access) (modifiers : ModifierSet) (present : Bool) : Access :=
  if present then { a with required := a.required ∪ modifiers }
  else { a with forbidden := a.forbidden ∪ modifiers }

/-- Requires the modifiers to be present, or to be absent when `present` is false. -/
def require (a : Access) (modifiers : ModifierSet) (present : Bool) :
    Except ModifierError Access :=
  let b := a.add modifiers present
  if b.Disjoint then .ok b else .error (.conflicting (b.required ∩ b.forbidden))

/-- Only field modifiers may be mentioned. -/
def checkField (a : Access) : Except ModifierError Unit :=
  if a.mentioned ⊆ .forField then .ok () else .error (.notForField (a.mentioned \ .forField))

/-- Only method modifiers may be mentioned. -/
def checkMethod (a : Access) : Except ModifierError Unit :=
  if a.mentioned ⊆ .forMethod then .ok () else .error (.notForMethod (a.mentioned \ .forMethod))

/-- A constraint is determined by the modifiers it mentions, and how. -/
theorem ext_mem {a b : Access} (hr : ∀ m : Modifier, m ∈ a.required ↔ m ∈ b.required)
    (hf : ∀ m : Modifier, m ∈ a.forbidden ↔ m ∈ b.forbidden) : a = b := by
  cases a
  cases b
  rw [mk.injEq]
  exact ⟨ModifierSet.ext hr, ModifierSet.ext hf⟩

theorem disjoint_iff {a : Access} :
    a.Disjoint ↔ ∀ m : Modifier, m ∈ a.required → m ∉ a.forbidden := by
  constructor
  · intro h m hr hf
    have : m ∈ a.required ∩ a.forbidden := (ModifierSet.mem_inter ..).2 ⟨hr, hf⟩
    rw [show a.required ∩ a.forbidden = ∅ from h] at this
    exact ModifierSet.notMem_empty m this
  · intro h
    refine ModifierSet.ext fun m => ?_
    rw [ModifierSet.mem_inter]
    exact ⟨fun hm => absurd hm.2 (h m hm.1), fun hm => absurd hm (ModifierSet.notMem_empty m)⟩

theorem require_eq_ok_iff {a b : Access} {s : ModifierSet} {present : Bool} :
    a.require s present = .ok b ↔ b = a.add s present ∧ b.Disjoint := by
  by_cases h : (a.add s present).Disjoint
  · simp only [require, h, if_true, Except.ok.injEq]
    exact ⟨fun hb => ⟨hb.symm, hb ▸ h⟩, fun hb => hb.1.symm⟩
  · simp only [require, h, if_false, reduceCtorEq, false_iff, not_and]
    exact fun hb => hb ▸ h

theorem require_eq_error_iff {a : Access} {s : ModifierSet} {present : Bool} {e : ModifierError} :
    a.require s present = .error e ↔ ¬ (a.add s present).Disjoint ∧
      e = .conflicting ((a.add s present).required ∩ (a.add s present).forbidden) := by
  by_cases h : (a.add s present).Disjoint
  · simp only [require, h, if_true, reduceCtorEq, not_true, false_and]
  · simp only [require, h, if_false, Except.error.injEq, not_false_iff, true_and]
    exact eq_comm

end Access

end KeepRules
