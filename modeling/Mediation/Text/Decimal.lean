import Mediation.Text.Basic

/-! # Decimal numbers

ASCII digits, the number a text of digits stands for, the text of a number, and
the reading of unsigned numbers below a bound.
-/

namespace Mediation.Text

def isNumeric (t : Text) : Bool := !t.isEmpty && t.all Char.isDigit

def value (t : Text) : Nat := Nat.ofDigitChars 10 t 0

def ofNat (n : Nat) : Text := Nat.toDigits 10 n

@[simp] theorem value_ofNat (n : Nat) : value (ofNat n) = n := by
  simp [value, ofNat]

def dropPlus : Text → Text
  | '+' :: t => t
  | t => t

/-- An optional plus sign and one or more digits, whose number is below `bound`. -/
def readBelow (bound : Nat) (t : Text) : Option Nat :=
  let digits := dropPlus t
  if isNumeric digits && value digits < bound then some (value digits) else none

/-- The digits of a number, filled up with zeros on the left to `width` characters. -/
def padded (width n : Nat) : Text :=
  let digits := ofNat n
  List.replicate (width - digits.length) '0' ++ digits

def word32 : Nat := 4294967296

def word64 : Nat := 18446744073709551616

end Mediation.Text
