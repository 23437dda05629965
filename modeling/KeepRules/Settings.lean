import KeepRules.Environment

/-! # Settings

What changes how configuration texts are read, and not what they mean. Variables of the
environment override the defaults; one that is not set, or that makes no sense, overrides
nothing. -/

set_option autoImplicit false

namespace KeepRules

structure Settings where
  /-- How many includes may be open at once, one inside the other. -/
  maxIncludeDepth : Nat := 32
  /-- The character that separates the entries of a class path. -/
  pathSeparator : Char := ':'
  /-- Whether properties fall back to the environment. -/
  inheritEnvironment : Bool := true
  deriving DecidableEq

namespace Settings

/-- The greatest depth that can be asked for, of sixty-four bits. -/
def greatestDepth : Nat := 0xFFFFFFFFFFFFFFFF

def digitsValue (digits : List Char) : Nat :=
  digits.foldl (fun n d => 10 * n + (d.toNat - '0'.toNat)) 0

/-- Decimal digits, possibly after a plus sign, up to the greatest depth. -/
def readDepth? (text : String) : Option Nat :=
  let digits := (Text.strip? ['+'] text.toList).getD text.toList
  if digits ≠ [] ∧ digits.all Char.isDigit ∧ digitsValue digits ≤ greatestDepth then
    some (digitsValue digits)
  else none

/-- The character of a text that has exactly one. -/
def onlyChar? (text : String) : Option Char :=
  match text.toList with
  | [c] => some c
  | _ => none

def ofEnvironment (env : Environment) : Settings where
  maxIncludeDepth := ((env.get? "SHROUD_MAX_INCLUDE_DEPTH").bind readDepth?).getD 32
  pathSeparator := ((env.get? "SHROUD_PATH_SEPARATOR").bind onlyChar?).getD ':'
  inheritEnvironment :=
    match env.get? "SHROUD_INHERIT_ENV" with
    | none => true
    | some value => value == "true" || value == "1"

end Settings

end KeepRules
