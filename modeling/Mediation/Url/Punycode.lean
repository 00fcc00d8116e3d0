import Mediation.Text.Basic

/-! # Punycode

The ASCII form of a label of a host name. Characters beyond ASCII are listed in
ascending order, each as the number of insertion points skipped since the last.
-/

namespace Mediation.Url.Punycode

/-- The digits: letters first, then figures. -/
def digit (n : Nat) : Char := Char.ofNat (if n < 26 then 0x61 + n else 0x30 + (n - 26))

/-- The least value that needs a further digit, at a position. -/
def threshold (bias position : Nat) : Nat := min 26 (max 1 (position - bias))

/-- How often a delta is divided until it is small, and what is left of it. -/
def settle : Nat → Nat → Nat → Nat × Nat
  | 0, steps, delta => (steps, delta)
  | fuel + 1, steps, delta =>
    if delta ≤ 455 then (steps, delta) else settle fuel (steps + 1) (delta / 35)

def adapt (delta count : Nat) (isFirst : Bool) : Nat :=
  let scaled := if isFirst then delta / 700 else delta / 2
  let (steps, left) := settle delta 0 (scaled + scaled / count)
  36 * steps + 36 * left / (left + 38)

def digits (bias : Nat) : Nat → Nat → Nat → Text
  | 0, _, _ => []
  | fuel + 1, position, q =>
    let t := threshold bias position
    if q < t then [digit q]
    else digit (t + (q - t) % (36 - t)) :: digits bias fuel (position + 36) ((q - t) / (36 - t))

/-- The state of the encoder: output, delta, bias and number of characters handled. -/
structure State where
  output : Text
  delta : Nat
  bias : Nat
  handled : Nat

def visit (basic code : Nat) (s : State) (c : Char) : State :=
  if c.toNat < code then { s with delta := s.delta + 1 }
  else if c.toNat == code then
    ⟨s.output ++ digits s.bias (s.delta + 1) 36 s.delta, 0,
      adapt s.delta (s.handled + 1) (s.handled == basic), s.handled + 1⟩
  else s

/-- Inserts the characters of a label with the given codes, in ascending order. -/
def insertCodes (label : Text) (basic : Nat) : Nat → List Nat → State → State
  | _, [], s => s
  | next, code :: codes, s =>
    let start := { s with delta := s.delta + (code - next) * (s.handled + 1) }
    let done := label.foldl (visit basic code) start
    insertCodes label basic (code + 1) codes { done with delta := done.delta + 1 }

def encode (label : Text) : Text :=
  let ascii := label.filter (·.toNat < 0x80)
  let codes := ((label.map Char.toNat).filter (0x80 ≤ ·)).eraseDups.mergeSort (· ≤ ·)
  ascii ++ (if ascii.isEmpty then [] else ['-']) ++
    (insertCodes label ascii.length 0x80 codes ⟨[], 0, 72, ascii.length⟩).output

end Mediation.Url.Punycode
