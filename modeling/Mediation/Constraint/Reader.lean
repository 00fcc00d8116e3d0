import Mediation.Constraint.Basic

/-! # Reading constraints

A specification is a plain version, or intervals in brackets with commas between
them in ascending order. The text is cut behind every closing bracket first, so
that each interval is one piece.
-/

namespace Mediation

def opensInterval (t : Text) : Bool := t.head?.any fun c => c == '[' || c == '('

def closesInterval (c : Char) : Bool := c == ']' || c == ')'

/-- The pieces of a text that end in a closing bracket, and what follows the last of them. -/
def cutBehindBrackets : Text → Text × List Text
  | [] => ([], [])
  | c :: rest =>
    let (first, others) := cutBehindBrackets rest
    if closesInterval c then ([c], first :: others) else (c :: first, others)

def Bound.read (inclusive : Bool) (t : Text) : Option Bound :=
  if t.isEmpty then none else some ⟨⟨t⟩, inclusive⟩

namespace Restriction

def isReversed (r : Restriction) : Bool :=
  match r.lower, r.upper with
  | some low, some high => high.version.precedes low.version
  | _, _ => false

def read (piece : Text) : Except ConstraintError Restriction :=
  let lowerInclusive := piece.head? == some '['
  let upperInclusive := piece.getLast? == some ']'
  let inner := Text.trim (piece.drop 1).dropLast
  match Text.cutAt ',' inner with
  | none =>
    if !lowerInclusive || !upperInclusive then .error (.invalidRange piece .bareVersion)
    else if inner.isEmpty then .error (.invalidRange piece .emptyVersion)
    else .ok (exactly ⟨inner⟩)
  | some (before, after) =>
    let low := before.trim
    let high := after.trim
    if high.contains ',' then .error (.invalidRange piece .tooManyBounds)
    else if !low.isEmpty && low == high then .error (.invalidRange piece .identicalBounds)
    else
      let r : Restriction := ⟨Bound.read lowerInclusive low, Bound.read upperInclusive high⟩
      if r.isReversed then .error (.invalidRange piece .reversedBounds) else .ok r

/-- Whether an interval begins before the one in front of it, with this upper bound, ends. -/
def overlapsAfter (r : Restriction) (previous : Option Bound) : Bool :=
  match previous, r.lower with
  | some high, some low => low.version.precedes high.version
  | _, _ => true

end Restriction

namespace Constraint

/-- What follows an interval, without one comma and the blanks around it. -/
def afterInterval (t : Text) : Text :=
  match t.trimStart with
  | ',' :: rest => Text.trimStart rest
  | rest => rest

/-- Reads intervals as long as one begins; the result ends with the text left over. -/
def readIntervals (spec : Text) (previous : Option (Option Bound)) (piece : Text) :
    List Text → Except ConstraintError (List Restriction × Text)
  | [] => if opensInterval piece then .error (.invalidRange spec .unclosed) else .ok ([], piece)
  | next :: more =>
    if opensInterval piece then do
      let r ← Restriction.read piece
      if previous.any r.overlapsAfter then throw (.invalidRange spec .overlapping)
      let (rs, left) ← readIntervals spec (some r.upper) (afterInterval next) more
      return (r :: rs, left)
    else .ok ([], piece ++ next ++ more.flatten)

def read (t : Text) : Except ConstraintError Constraint :=
  let spec := t.trim
  if spec.isEmpty then .error (.invalidRange spec .emptySpecification)
  else do
    let (piece, pieces) := cutBehindBrackets spec
    let (restrictions, left) ← readIntervals spec none piece pieces
    if left.isEmpty then return ⟨none, restrictions⟩
    else if restrictions.isEmpty then return soft ⟨left⟩
    else throw (.invalidRange spec .mixed)

end Constraint

end Mediation
