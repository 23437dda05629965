import KeepRules.Host

/-! # Properties

References `<name>` in file names and filters stand for the values of properties. A table holds
explicit values, which win over the environment; the environment counts only for a table that
inherits it. Values are inserted as they are and not searched for references again. -/

set_option autoImplicit false

namespace KeepRules

inductive PropertyError where
  | unterminated
  | undefined (name : String)
  deriving DecidableEq

namespace PropertyError

def message : PropertyError → String
  | unterminated => "Expecting closing '>' after opening '<'"
  | undefined name => "Value of system property '" ++ name ++ "' is undefined"

end PropertyError

structure Properties where
  /-- The latest entry for a name comes first. -/
  entries : List (String × String) := []
  inherits : Bool := false
  deriving DecidableEq

namespace Properties

def set (p : Properties) (name value : String) : Properties :=
  { p with entries := (name, value) :: p.entries }

def get? (p : Properties) (env : Environment) (name : String) : Option String :=
  (p.entries.lookup name).or (if p.inherits then env.get? name else none)

/-- The table of properties that come from the machine. -/
def system (host : Host) : Properties :=
  let home := (host.environment.get? "HOME").or (host.environment.get? "USERPROFILE")
  let table : Properties := { inherits := true }
  let table := table.set "user.dir" host.directory
  let table := home.elim table fun value => table.set "user.home" value
  (table.set "file.separator" "/").set "path.separator" ":"

/-- Replaces references in place. The value takes the place of the first reference at or after
`start`, and the search goes on behind it. -/
def replaceFrom (value? : String → Option String) (text : List Char) (start : Nat) :
    Except PropertyError (List Char) :=
  match _ho : (text.drop start).idxOf? '<' with
  | none => .ok text
  | some offset =>
    let opening := start + offset
    match _hc : (text.drop (opening + 1)).idxOf? '>' with
    | none => .error .unterminated
    | some length =>
      let closing := opening + 1 + length
      let name := String.ofList ((text.drop (opening + 1)).take length)
      match value? name with
      | none => .error (.undefined name)
      | some value =>
        replaceFrom value? (text.take opening ++ value.toList ++ text.drop (closing + 1))
          (opening + value.length)
termination_by text.length - start
decreasing_by
  -- what is left to search ends where it did, and starts behind the closing mark
  have hlength := (List.idxOf?_eq_some_iff.1 _hc).1
  simp only [List.length_drop] at hlength
  simp only [List.length_append, List.length_take, List.length_drop, String.length_toList]
  omega

def replace (p : Properties) (env : Environment) (word : String) : Except PropertyError String :=
  (replaceFrom (p.get? env) word.toList 0).map String.ofList

@[simp] theorem get?_set (p : Properties) (env : Environment) (name value other : String) :
    (p.set name value).get? env other = if other = name then some value else p.get? env other := by
  have look : ((name, value) :: p.entries).lookup other
      = if other = name then some value else p.entries.lookup other := by
    rw [List.lookup_cons]
    by_cases h : other = name
    · simp [h]
    · rw [beq_eq_false_iff_ne.2 h, if_neg h]
  rw [get?, set, look]
  split
  · rfl
  · rfl

end Properties

/-- What the meaning of a word can depend on. -/
structure Context where
  properties : Properties
  host : Host

namespace Context

/-- The word with its references replaced. -/
def replace (ctx : Context) (word : String) : Except PropertyError String :=
  ctx.properties.replace ctx.host.environment word

end Context

end KeepRules
