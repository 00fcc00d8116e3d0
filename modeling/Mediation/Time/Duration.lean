import Mediation.Text.Blank
import Mediation.Text.Decimal

/-! # Durations

Durations are read in seconds, minutes or hours, exactly or not at all, and
printed in the largest unit that leaves a whole part.
-/

namespace Mediation.Duration

def units : List (Char × Nat) := [('s', 1), ('m', 60), ('h', 3600)]

/-- The number in front of a unit, and the unit in seconds. -/
def cutUnit (t : Text) : Text × Nat :=
  match t.getLast?.bind fun c => units.lookup c with
  | some seconds => (t.dropLast, seconds)
  | none => (t, 1)

def seconds? (t : Text) : Option Nat := do
  let (number, unit) := cutUnit (Text.lower t.trim)
  let n ← Text.readBelow Text.word64 (Text.trim number)
  guard (n * unit < Text.word64)
  return n * unit

/-- The digits behind the point of a number of thousandths, without zeros at the end. -/
def thousandths (n : Nat) : Text :=
  let digits := ((Text.padded 3 n).reverse.dropWhile (· == '0')).reverse
  if digits.isEmpty then [] else '.' :: digits

def text (milliseconds : Nat) : Text :=
  if milliseconds = 0 then "0ns"
  else if milliseconds < 1000 then Text.ofNat milliseconds ++ "ms"
  else Text.ofNat (milliseconds / 1000) ++ thousandths (milliseconds % 1000) ++ "s"

end Mediation.Duration
