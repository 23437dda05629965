import KeepRules.Configuration.Parser
import KeepRules.Configuration.Printer

/-! # Round trips

Reading a text and writing the configuration that it stands for. -/

set_option autoImplicit false

namespace KeepRules.Configuration

/-- Reads a text and writes what it says. -/
def roundTrip (host : Host) (settings : Settings) (text : String) : Except ParseError String :=
  (ofText host settings "round trip" text).map (print settings.pathSeparator)

end KeepRules.Configuration
