import Mediation.Text.Decimal
import Mediation.Text.DecimalDigit
import Mediation.Version.Basic

/-! # Timestamped builds

A deployed snapshot is written `base-day.time-number`: eight digits for the day,
six for the time and one or more for the build number. Digits of every script
count, and the base is a single line.
-/

namespace Mediation

/-- The parts of a version that names one build of a snapshot. -/
structure Build where
  base : Text
  day : Text
  time : Text
  number : Text
  deriving DecidableEq, Repr

namespace Build

def text (b : Build) : Text :=
  b.base ++ '-' :: b.day ++ '.' :: b.time ++ '-' :: b.number

def timestamp (b : Build) : Text := b.day ++ '.' :: b.time

/-- A one-line base, eight and six digits, and a build number of at least one digit. -/
def isProper (b : Build) : Bool :=
  !b.base.contains '\n' &&
    b.day.length == 8 && b.day.all Text.isDecimalDigit &&
    b.time.length == 6 && b.time.all Text.isDecimalDigit &&
    !b.number.isEmpty && b.number.all Text.isDecimalDigit

/-- The last `n` characters of a text and what precedes them, given the reversed text. -/
def takeBack (n : Nat) (reversed : Text) : Text × Text :=
  ((reversed.take n).reverse, reversed.drop n)

/-- The only way to cut a text into the parts of a build. -/
def cut? (t : Text) : Option Build :=
  let number := (t.reverse.takeWhile Text.isDecimalDigit).reverse
  match t.reverse.dropWhile Text.isDecimalDigit with
  | '-' :: r₁ =>
    let (time, r₂) := takeBack 6 r₁
    match r₂ with
    | '.' :: r₃ =>
      let (day, r₄) := takeBack 8 r₃
      match r₄ with
      | '-' :: r₅ => some ⟨r₅.reverse, day, time, number⟩
      | _ => none
    | _ => none
  | _ => none

def read? (t : Text) : Option Build := (cut? t).filter isProper

end Build

namespace Version

def build? (v : Version) : Option Build := Build.read? v.text

def isTimestamped (v : Version) : Bool := v.build?.isSome

def isSnapshot (v : Version) : Bool := v.isOpenSnapshot || v.isTimestamped

/-- The version that a build was deployed from; every other version is its own base. -/
def base (v : Version) : Version :=
  match v.build? with
  | some b => ⟨b.base ++ '-' :: snapshotMark⟩
  | none => v

/-- Timestamp and build number, where the number is ASCII and fits 32 bits. -/
def snapshotBuild (v : Version) : Option (Text × Nat) := do
  let b ← v.build?
  let number ← Text.readBelow Text.word32 b.number
  return (b.timestamp, number)

end Version

end Mediation
