/-! # Class paths -/

set_option autoImplicit false

namespace KeepRules

/-- A jar, a zip or a directory, with an optional filter on the names it yields. -/
structure PathEntry where
  name : String
  /-- Name patterns separated by commas. -/
  filter : Option String := none
  deriving DecidableEq

/-- The entries in the order in which they are searched. -/
abbrev ClassPath := List PathEntry

end KeepRules
