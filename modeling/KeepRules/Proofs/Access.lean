import KeepRules.Access

/-! # Requirements imposed in turn

A constraint is built by requirements, each about any number of modifiers. A requirement is refused
if it would make a modifier both required and forbidden, and building goes on without it.

* `Requirement.impose`: a requirement imposed on the constraint that is kept. All that it can do is
  said by `impose_of_disjoint` and `impose_of_not_disjoint`.
* `Requirement.Clashes`: the modifiers for which a requirement is refused; the refusal lists them
  (`lists_clashes`).
* `Access.attempts`: what came of each requirement. The constraint stays disjoint
  (`disjoint_of_mem_attempts`), and it is joined with what has been accepted (`after_eq_join`).
* `Access.allAccepted_iff`: nothing is refused exactly if all the requirements together are
  disjoint, so that their order does not matter. `requirements_settled` puts these together. -/

set_option autoImplicit false

namespace KeepRules

/-- Modifiers that are to be present, or to be absent when `present` is false. -/
structure Requirement where
  modifiers : ModifierSet
  present : Bool
  deriving DecidableEq

namespace Requirement

/-- Imposes the requirement on the constraint that is kept. -/
def impose (r : Requirement) : EStateM ModifierError Access Unit := do
  match (← get).require r.modifiers r.present with
  | .ok a => set a
  | .error e => throw e

/-- All modifiers that requirements want to be present, or to be absent. -/
def joined (present : Bool) (rs : List Requirement) : ModifierSet :=
  (rs.filter fun r => r.present == present).foldr (fun r s => r.modifiers ∪ s) ∅

/-- The requirement names a modifier, and the constraint has it on the other side. -/
def Clashes (r : Requirement) (a : Access) (m : Modifier) : Prop :=
  m ∈ r.modifiers ∧ m ∈ if r.present then a.forbidden else a.required

end Requirement

/-- The error is a conflict about just the modifiers with the property, and its text has their
keywords in canonical order. -/
def ModifierError.Lists (e : ModifierError) (p : Modifier → Prop) : Prop :=
  ∃ listed : List Modifier, listed.Sublist Modifier.all ∧ (∀ m, m ∈ listed ↔ p m) ∧
    e = .conflicting (.ofList listed) ∧
    e.message = "Conflicting access modifiers for '" ++
      ", ".intercalate (listed.map Modifier.keyword) ++ "'"

/-- A requirement, the constraint that it was imposed on, and the result. -/
structure Attempt where
  before : Access
  requirement : Requirement
  result : EStateM.Result ModifierError Access Unit

namespace Attempt

def after (t : Attempt) : Access :=
  match t.result with
  | .ok _ a => a
  | .error _ a => a

def accepted (t : Attempt) : Bool :=
  match t.result with
  | .ok _ _ => true
  | .error _ _ => false

end Attempt

namespace Access

def attempt (a : Access) (r : Requirement) : Attempt := ⟨a, r, r.impose a⟩

/-- The requirements are imposed in turn, also after one has been refused. -/
def attempts (a : Access) : List Requirement → List Attempt
  | [] => []
  | r :: rs => a.attempt r :: (a.attempt r).after.attempts rs

/-- The constraint that is left in the end. -/
def after (a : Access) (rs : List Requirement) : Access :=
  rs.foldl (fun a r => (a.attempt r).after) a

/-- Those of the requirements that are not refused. -/
def accepted (a : Access) (rs : List Requirement) : List Requirement :=
  ((a.attempts rs).filter Attempt.accepted).map Attempt.requirement

def AllAccepted (a : Access) (rs : List Requirement) : Prop :=
  ∀ t ∈ a.attempts rs, t.accepted = true

instance (a : Access) (rs : List Requirement) : Decidable (a.AllAccepted rs) :=
  inferInstanceAs (Decidable (∀ t ∈ a.attempts rs, t.accepted = true))

/-- The constraint together with all that the requirements want. -/
def join (a : Access) (rs : List Requirement) : Access where
  required := a.required ∪ Requirement.joined true rs
  forbidden := a.forbidden ∪ Requirement.joined false rs

end Access

/-! ## One requirement -/

namespace Requirement

variable {r : Requirement} {a : Access}

theorem impose_eq (r : Requirement) (a : Access) :
    r.impose a = match a.require r.modifiers r.present with
      | .ok b => .ok () b
      | .error e => .error e a := by
  show (match a.require r.modifiers r.present with
    | .ok b => (set b : EStateM ModifierError Access Unit)
    | .error e => throw e) a = _
  cases a.require r.modifiers r.present <;> rfl

theorem impose_of_disjoint (h : (a.add r.modifiers r.present).Disjoint) :
    r.impose a = .ok () (a.add r.modifiers r.present) := by
  rw [impose_eq, Access.require_eq_ok_iff.2 ⟨rfl, h⟩]

theorem impose_of_not_disjoint (h : ¬ (a.add r.modifiers r.present).Disjoint) :
    r.impose a = .error (.conflicting ((a.add r.modifiers r.present).required ∩
      (a.add r.modifiers r.present).forbidden)) a := by
  rw [impose_eq, Access.require_eq_error_iff.2 ⟨h, rfl⟩]

/-- What clashes with a disjoint constraint is what would be both required and forbidden. -/
theorem mem_overlap_iff (ha : a.Disjoint) {m : Modifier} :
    m ∈ (a.add r.modifiers r.present).required ∩ (a.add r.modifiers r.present).forbidden ↔
      r.Clashes a m := by
  have hm := Access.disjoint_iff.1 ha m
  obtain ⟨s, present⟩ := r
  cases present with
  | true =>
    simp only [Access.add, Clashes, if_true, ModifierSet.mem_inter, ModifierSet.mem_union]
    constructor
    · exact fun h => ⟨h.1.resolve_left fun hr => hm hr h.2, h.2⟩
    · exact fun h => ⟨.inr h.1, h.2⟩
  | false =>
    simp only [Access.add, Clashes, Bool.false_eq_true, if_false, ModifierSet.mem_inter,
      ModifierSet.mem_union]
    constructor
    · exact fun h => ⟨h.2.resolve_left (hm h.1), h.1⟩
    · exact fun h => ⟨h.2, .inr h.1⟩

theorem disjoint_add_iff (ha : a.Disjoint) :
    (a.add r.modifiers r.present).Disjoint ↔ ∀ m, ¬ r.Clashes a m := by
  simp only [← mem_overlap_iff ha, ModifierSet.mem_inter, not_and]
  exact Access.disjoint_iff

/-- A refusal is about what clashes, and it leaves the constraint as it is. -/
theorem lists_clashes (ha : a.Disjoint) {e : ModifierError} {b : Access}
    (h : r.impose a = .error e b) : b = a ∧ e.Lists (r.Clashes a) := by
  by_cases hd : (a.add r.modifiers r.present).Disjoint
  · rw [impose_of_disjoint hd] at h
    cases h
  · rw [impose_of_not_disjoint hd] at h
    cases h
    refine ⟨rfl, _, List.filter_sublist, fun m => ?_, ?_, rfl⟩
    · exact ModifierSet.mem_toList.trans (mem_overlap_iff ha)
    · refine congrArg ModifierError.conflicting (ModifierSet.ext fun m => ?_)
      exact (ModifierSet.mem_ofList.trans ModifierSet.mem_toList).symm

end Requirement

namespace Access

variable {a : Access} {r : Requirement} {rs rs' : List Requirement}

theorem accepted_attempt_iff :
    (a.attempt r).accepted = true ↔ (a.add r.modifiers r.present).Disjoint := by
  by_cases h : (a.add r.modifiers r.present).Disjoint
  · simp [Attempt.accepted, attempt, Requirement.impose_of_disjoint h, h]
  · simp [Attempt.accepted, attempt, Requirement.impose_of_not_disjoint h, h]

theorem after_attempt_of_accepted (h : (a.attempt r).accepted = true) :
    (a.attempt r).after = a.add r.modifiers r.present := by
  simp only [Attempt.after, attempt, Requirement.impose_of_disjoint (accepted_attempt_iff.1 h)]

theorem after_attempt_of_refused (h : ¬ (a.attempt r).accepted = true) :
    (a.attempt r).after = a := by
  simp only [Attempt.after, attempt,
    Requirement.impose_of_not_disjoint (mt accepted_attempt_iff.2 h)]

theorem disjoint_after_attempt (ha : a.Disjoint) : (a.attempt r).after.Disjoint := by
  by_cases h : (a.attempt r).accepted = true
  · rw [after_attempt_of_accepted h]
    exact accepted_attempt_iff.1 h
  · rw [after_attempt_of_refused h]
    exact ha

/-! ## Joining requirements -/

theorem mem_joined {m : Modifier} {present : Bool} :
    m ∈ Requirement.joined present rs ↔ ∃ r ∈ rs, r.present = present ∧ m ∈ r.modifiers := by
  induction rs with
  | nil => simp [Requirement.joined]
  | cons r rs ih =>
    simp only [List.mem_cons, exists_eq_or_imp, ← ih]
    by_cases h : r.present = present
    · simp [Requirement.joined, h]
    · simp [Requirement.joined, h]

@[simp] theorem mem_required_join {m : Modifier} : m ∈ (a.join rs).required ↔
    m ∈ a.required ∨ ∃ r ∈ rs, r.present = true ∧ m ∈ r.modifiers := by
  rw [join, ModifierSet.mem_union, mem_joined]

@[simp] theorem mem_forbidden_join {m : Modifier} : m ∈ (a.join rs).forbidden ↔
    m ∈ a.forbidden ∨ ∃ r ∈ rs, r.present = false ∧ m ∈ r.modifiers := by
  rw [join, ModifierSet.mem_union, mem_joined]

theorem join_nil : a.join [] = a := ext_mem (fun m => by simp) (fun m => by simp)

theorem join_cons : a.join (r :: rs) = (a.add r.modifiers r.present).join rs := by
  obtain ⟨s, present⟩ := r
  cases present with
  | true => exact ext_mem (fun m => by simp [add, or_assoc]) (fun m => by simp [add])
  | false => exact ext_mem (fun m => by simp [add]) (fun m => by simp [add, or_assoc])

theorem join_perm (h : rs.Perm rs') : a.join rs = a.join rs' :=
  ext_mem (fun m => by simp [h.mem_iff]) (fun m => by simp [h.mem_iff])

theorem Disjoint.of_join (h : (a.join rs).Disjoint) : a.Disjoint := by
  rw [disjoint_iff] at h ⊢
  intro m hr hf
  exact h m (mem_required_join.2 (.inl hr)) (mem_forbidden_join.2 (.inl hf))

/-! ## Requirements in turn -/

/-- Requirements are imposed on disjoint constraints, and the constraint stays disjoint. -/
theorem disjoint_of_mem_attempts (ha : a.Disjoint) {t : Attempt} (ht : t ∈ a.attempts rs) :
    t.before.Disjoint ∧ t = t.before.attempt t.requirement ∧ t.after.Disjoint := by
  induction rs generalizing a with
  | nil => cases ht
  | cons r rs ih =>
    rcases List.mem_cons.1 ht with rfl | ht
    · exact ⟨ha, rfl, disjoint_after_attempt ha⟩
    · exact ih (disjoint_after_attempt ha) ht

theorem accepted_cons : a.accepted (r :: rs) =
    if (a.attempt r).accepted then r :: (a.attempt r).after.accepted rs
    else (a.attempt r).after.accepted rs := by
  rw [accepted, attempts, List.filter_cons]
  split <;> rfl

/-- The constraint is joined with what has been accepted. -/
theorem after_eq_join : a.after rs = a.join (a.accepted rs) := by
  induction rs generalizing a with
  | nil => exact join_nil.symm
  | cons r rs ih =>
    have hstep : a.after (r :: rs) = (a.attempt r).after.after rs := rfl
    rw [hstep, ih, accepted_cons]
    by_cases h : (a.attempt r).accepted = true
    · rw [if_pos h, after_attempt_of_accepted h, join_cons]
    · rw [if_neg h, after_attempt_of_refused h]

theorem allAccepted_cons : a.AllAccepted (r :: rs) ↔
    (a.attempt r).accepted = true ∧ (a.attempt r).after.AllAccepted rs :=
  List.forall_mem_cons

/-- Nothing is refused exactly if all the requirements together are disjoint. -/
theorem allAccepted_iff (ha : a.Disjoint) : a.AllAccepted rs ↔ (a.join rs).Disjoint := by
  induction rs generalizing a with
  | nil =>
    rw [join_nil]
    exact ⟨fun _ => ha, fun _ => nofun⟩
  | cons r rs ih =>
    rw [allAccepted_cons, join_cons]
    constructor
    · rintro ⟨h, hrs⟩
      rw [after_attempt_of_accepted h] at hrs
      exact (ih (accepted_attempt_iff.1 h)).1 hrs
    · intro h
      -- Joining only adds, so what is disjoint in the end has been so after each requirement.
      have hr : (a.attempt r).accepted = true := accepted_attempt_iff.2 h.of_join
      rw [after_attempt_of_accepted hr]
      exact ⟨hr, (ih h.of_join).2 h⟩

theorem map_requirement_attempts (a : Access) (rs : List Requirement) :
    (a.attempts rs).map Attempt.requirement = rs := by
  induction rs generalizing a with
  | nil => rfl
  | cons r rs ih => exact congrArg (r :: ·) (ih _)

theorem AllAccepted.after_eq (h : a.AllAccepted rs) : a.after rs = a.join rs := by
  rw [after_eq_join, accepted, List.filter_eq_self.2 h, map_requirement_attempts]

/-- Requirements that are all accepted are so in any order, and to the same end. -/
theorem AllAccepted.of_perm (ha : a.Disjoint) (h : a.AllAccepted rs) (hp : rs.Perm rs') :
    a.AllAccepted rs' ∧ a.after rs' = a.after rs := by
  have h' : a.AllAccepted rs' := (allAccepted_iff ha).2 (join_perm hp ▸ (allAccepted_iff ha).1 h)
  exact ⟨h', by rw [h'.after_eq, h.after_eq, join_perm hp]⟩

/-- How requirements come out that are imposed in turn on a constraint. -/
structure Settled (a : Access) (rs : List Requirement) : Prop where
  disjoint : ∀ t ∈ a.attempts rs, t.after.Disjoint
  /-- A requirement is accepted exactly if nothing in it clashes with what is there by then. -/
  accepts : ∀ t ∈ a.attempts rs,
    t.accepted = true ↔ ∀ m, ¬ t.requirement.Clashes t.before m
  /-- A refusal leaves the constraint as it was and lists what clashes. -/
  refuses : ∀ t ∈ a.attempts rs, ∀ e b, t.result = .error e b →
    b = t.before ∧ e.Lists (t.requirement.Clashes t.before)
  joins : a.after rs = a.join (a.accepted rs)
  /-- Whether all are accepted can be told without imposing them. -/
  compatible : a.AllAccepted rs ↔ (a.join rs).Disjoint
  order : a.AllAccepted rs → ∀ rs', rs.Perm rs' → a.AllAccepted rs' ∧ a.after rs' = a.after rs

/-- **Requirements keep a constraint disjoint.** It is joined with those that are accepted; one that
is refused changes nothing, and if none is, their order does not matter. -/
theorem requirements_settled (ha : a.Disjoint) (rs : List Requirement) : a.Settled rs where
  disjoint t ht := (disjoint_of_mem_attempts ha ht).2.2
  accepts t ht := by
    obtain ⟨hb, heq, -⟩ := disjoint_of_mem_attempts ha ht
    rw [← Requirement.disjoint_add_iff hb, ← accepted_attempt_iff, ← heq]
  refuses t ht e b he := by
    obtain ⟨hb, heq, -⟩ := disjoint_of_mem_attempts ha ht
    rw [heq] at he
    exact Requirement.lists_clashes hb he
  joins := after_eq_join
  compatible := allAccepted_iff ha
  order h _ hp := h.of_perm ha hp

def publicAccess : Access := { required := .singleton .accPublic }

/-- The second of these wants two modifiers to be absent that are required by then. -/
def mixedRequirements : List Requirement :=
  [⟨.ofList [.accStatic, .accFinal], true⟩,
   ⟨.ofList [.accAbstract, .accFinal, .accPublic], false⟩,
   ⟨∅, true⟩,
   ⟨.singleton .accAbstract, false⟩]

theorem requirements_settled_mixed :
    publicAccess.Disjoint ∧ publicAccess.Settled mixedRequirements ∧
      (publicAccess.attempts mixedRequirements).map Attempt.accepted = [true, false, true, true] ∧
      (∃ t ∈ publicAccess.attempts mixedRequirements, ∃ e b, t.result = .error e b ∧
        e.message = "Conflicting access modifiers for 'public, final'") ∧
      publicAccess.after mixedRequirements =
        { required := .ofList [.accPublic, .accStatic, .accFinal]
          forbidden := .singleton .accAbstract } ∧
      publicAccess.after (mixedRequirements.eraseIdx 1).reverse =
        publicAccess.after (mixedRequirements.eraseIdx 1) := by
  have hdisjoint : publicAccess.Disjoint := by decide
  have hall : publicAccess.AllAccepted (mixedRequirements.eraseIdx 1) := by decide
  refine ⟨hdisjoint, requirements_settled hdisjoint _, by decide,
    ⟨_, List.mem_cons_of_mem _ List.mem_cons_self, _, _, rfl, by decide⟩, by decide, ?_⟩
  exact ((requirements_settled hdisjoint _).order hall _ (List.reverse_perm _).symm).2

/-- Where something is refused, the order does matter. -/
example :
    ({} : Access).after [⟨.singleton .accFinal, true⟩, ⟨.singleton .accFinal, false⟩] ≠
      ({} : Access).after [⟨.singleton .accFinal, false⟩, ⟨.singleton .accFinal, true⟩] := by
  decide

end Access

end KeepRules
