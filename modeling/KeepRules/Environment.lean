import KeepRules.Text.Cut

/-! # Process environments

The entries of an environment are texts `NAME=VALUE`. A look-up takes the first entry that starts
with the name and an equals sign, so that a name with an equals sign of its own can match an entry
whose value has one. -/

set_option autoImplicit false

namespace KeepRules

structure Environment where
  entries : List String
  deriving DecidableEq

namespace Environment

def ofPairs (pairs : List (String × String)) : Environment :=
  ⟨pairs.map fun p => p.1 ++ "=" ++ p.2⟩

/-- The value of a variable. The empty name and names with a NUL are never set. -/
def get? (env : Environment) (name : String) : Option String :=
  if name = "" ∨ '\x00' ∈ name.toList then none
  else env.entries.findSome? fun e => (Text.strip? (name ++ "=").toList e.toList).map String.ofList

end Environment

end KeepRules
