/-! # Random values

Generators draw from a sequence of pseudo-random words that a seed determines. -/

set_option autoImplicit false

namespace KeepRules.Sample

/-- A way to draw values, given the state of the random sequence. -/
abbrev Gen (α : Type) := StateM UInt64 α

namespace Gen

variable {α : Type}

/-- The next word: the state moves on by a fixed odd step and is then mixed. -/
def word : Gen UInt64 := do
  modify (· + 0x9E3779B97F4A7C15)
  let z ← get
  let z := (z ^^^ (z >>> 30)) * 0xBF58476D1CE4E5B9
  let z := (z ^^^ (z >>> 27)) * 0x94D049BB133111EB
  return z ^^^ (z >>> 31)

/-- A number below `n`, or zero if there is none. -/
def below (n : Nat) : Gen Nat := return (← word).toNat % n

/-- A number from `low` to `high`. -/
def between (low high : Nat) : Gen Nat := return low + (← below (high + 1 - low))

def boolean : Gen Bool := return (← below 2) == 1

/-- One of the values, the first one as likely as any other. -/
def oneOf (first : α) (others : List α) : Gen α :=
  return ((first :: others)[← below (others.length + 1)]?).getD first

def optional (g : Gen α) : Gen (Option α) := do
  if ← boolean then return some (← g) else return none

/-- As many values as told. -/
def exactly (g : Gen α) : Nat → Gen (List α)
  | 0 => return []
  | n + 1 => return (← g) :: (← exactly g n)

/-- From `low` to `high` values. -/
def several (low high : Nat) (g : Gen α) : Gen (List α) := do
  exactly g (← between low high)

/-- A text of `low` to `high` characters of an alphabet. -/
def text (alphabet : String) (low high : Nat) : Gen String := do
  match alphabet.toList with
  | [] => return ""
  | c :: others => return String.ofList (← several low high (oneOf c others))

/-- The value drawn with a seed. -/
def draw (g : Gen α) (seed : Nat) : α := (g.run seed.toUInt64).1

end Gen

end KeepRules.Sample
