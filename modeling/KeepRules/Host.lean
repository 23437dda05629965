import KeepRules.Environment
import KeepRules.FileSystem

/-! # The machine

What reading a configuration can see of the machine that it runs on. The files are a function, so
that a run always sees the same content under the same name. -/

set_option autoImplicit false

namespace KeepRules

structure Host where
  environment : Environment
  /-- The working directory. -/
  directory : String
  openFile : String → Except IoFault Content

end KeepRules
