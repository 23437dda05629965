import KeepRules.FileSystem
import KeepRules.Text.Lines

/-! # Line sources

Configuration lines come from command-line arguments, one line each, from a text in memory, or
from a file. A source knows how many lines it has given so far; a line that is not UTF-8 is passed
over with a fault and not counted. -/

set_option autoImplicit false

namespace KeepRules

/-- What lines come from. A text in memory goes by the name of a file. -/
inductive Origin where
  | arguments
  | file (name : String)
  deriving DecidableEq

namespace Origin

def describe : Origin → String
  | arguments => "command-line arguments"
  | file name => "file '" ++ name ++ "'"

/-- The `n`-th line, counted from one. -/
def describeLine (n : Nat) : Origin → String
  | arguments => "argument number " ++ toString n
  | file name => "line " ++ toString n ++ " of " ++ (file name).describe

end Origin

structure Source where
  origin : Origin
  /-- The lines not yet given, `none` for one that is not UTF-8. -/
  unread : List (Option String)
  /-- What a read past the last line meets, each time, if not the end. -/
  fault : Option IoFault := none
  /-- The number of lines given so far. -/
  count : Nat := 0
  deriving DecidableEq

namespace Source

def ofArguments (arguments : List String) : Source where
  origin := .arguments
  unread := arguments.map some

def ofText (name text : String) : Source where
  origin := .file name
  unread := (Text.lines text).map some

def ofContent (name : String) : Content → Source
  | .file bytes => { origin := .file name, unread := Text.byteLines bytes }
  | .directory => { origin := .file name, unread := [], fault := some .isDirectory }

/-- The next line, or nothing at the end. -/
def nextLine (s : Source) : EStateM.Result IoFault Source (Option String) :=
  match s.unread with
  | [] =>
    match s.fault with
    | none => .ok none s
    | some fault => .error fault s
  | none :: rest => .error .invalidUtf8 { s with unread := rest }
  | some line :: rest => .ok (some line) { s with unread := rest, count := s.count + 1 }

/-- Where the line given last came from. -/
def lineLocation (s : Source) : String := s.origin.describeLine s.count

theorem unread_of_nextLine_some {s s' : Source} {line : String}
    (h : s.nextLine = .ok (some line) s') :
    s.unread = some line :: s'.unread ∧ s'.origin = s.origin ∧ s'.fault = s.fault ∧
      s'.count = s.count + 1 := by
  unfold nextLine at h
  split at h
  · split at h <;> simp at h
  · simp at h
  · next line' rest hu =>
    simp only [EStateM.Result.ok.injEq, Option.some.injEq] at h
    obtain ⟨rfl, rfl⟩ := h
    exact ⟨hu, rfl, rfl, rfl⟩

theorem unread_of_nextLine_none {s s' : Source} (h : s.nextLine = .ok none s') :
    s' = s ∧ s.unread = [] := by
  unfold nextLine at h
  split at h
  · next hu =>
    split at h
    · simp only [EStateM.Result.ok.injEq, true_and] at h
      exact ⟨h.symm, hu⟩
    · simp at h
  · simp at h
  · simp at h

end Source

end KeepRules
