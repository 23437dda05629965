import KeepRules.Json.Basic

/-! # Reading values out of JSON

A record is read from an object, whose unknown fields do not matter, or from an array that lists
the fields in the order of their declaration. Fields that are there are read before missing ones
are missed. -/

set_option autoImplicit false

namespace KeepRules

inductive DecodeError where
  /-- The value is not of the form that is wanted. -/
  | mismatch
  /-- An access word with bits that stand for no modifier. -/
  | undefinedBits (bits : Nat)
  deriving DecidableEq

namespace DecodeError

def message? : DecodeError → Option String
  | mismatch => none
  | undefinedBits bits => some ("invalid AccessFlags bits: 0x" ++ Json.hexDigits 4 bits)

end DecodeError

/-- A way to read values of a type. -/
abbrev Decoder (α : Type) := Json → Except DecodeError α

namespace Decoder

variable {α : Type}

def boolean : Decoder Bool
  | .bool b => .ok b
  | _ => .error .mismatch

def text : Decoder String
  | .string s => .ok s
  | _ => .error .mismatch

/-- A whole number from zero to `greatest`. -/
def natural (greatest : Nat) : Decoder Nat
  | .number (.ofNat n) => if n ≤ greatest then .ok n else .error .mismatch
  | _ => .error .mismatch

/-- `null` stands for nothing. -/
def optional (value : Decoder α) : Decoder (Option α)
  | .null => .ok none
  | j => (value j).map some

def list (item : Decoder α) : Decoder (List α)
  | .array items => items.mapM item
  | _ => .error .mismatch

/-- The fields of a record with the given field names. -/
def record (names : List String) : Decoder (List (String × Json))
  | .object fields => .ok fields
  | .array items => if items.length ≤ names.length then .ok (names.zip items) else .error .mismatch
  | _ => .error .mismatch

/-- A field that may be missing. -/
def field? (fields : List (String × Json)) (name : String) (value : Decoder α) :
    Except DecodeError (Option α) :=
  match fields.lookup name with
  | none => .ok none
  | some j => (value j).map some

def required (value : Option α) : Except DecodeError α :=
  match value with
  | some a => .ok a
  | none => .error .mismatch

end Decoder

end KeepRules
