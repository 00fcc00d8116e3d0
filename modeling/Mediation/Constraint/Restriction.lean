import Mediation.Version.Rank

/-! # Intervals of versions

A restriction is an interval with an optional bound on either side. Two intervals
meet in the interval between the higher lower bound and the lower upper bound.
-/

namespace Mediation

structure Bound where
  version : Version
  inclusive : Bool
  deriving DecidableEq, Repr

/-- An interval of versions; a side without a bound is open to all. -/
structure Restriction where
  lower : Option Bound
  upper : Option Bound
  deriving DecidableEq, Repr

namespace Bound

def admitsAbove (b : Bound) (v : Version) : Bool :=
  match v.compare b.version with
  | .lt => false
  | .eq => b.inclusive
  | .gt => true

def admitsBelow (b : Bound) (v : Version) : Bool :=
  match v.compare b.version with
  | .lt => true
  | .eq => b.inclusive
  | .gt => false

def higher (a b : Bound) : Bound :=
  match a.version.compare b.version with
  | .gt => a
  | .lt => b
  | .eq => ⟨a.version, a.inclusive && b.inclusive⟩

def lower (a b : Bound) : Bound :=
  match a.version.compare b.version with
  | .lt => a
  | .gt => b
  | .eq => ⟨a.version, a.inclusive && b.inclusive⟩

/-- Whether some version may lie between a lower and an upper bound. -/
def admitsBetween (low high : Bound) : Bool :=
  match low.version.compare high.version with
  | .lt => true
  | .eq => low.inclusive && high.inclusive
  | .gt => false

def same (a b : Bound) : Bool := a.version.same b.version && a.inclusive == b.inclusive

end Bound

def tighten (combine : Bound → Bound → Bound) : Option Bound → Option Bound → Option Bound
  | none, b => b
  | a, none => a
  | some a, some b => some (combine a b)

/-- Whether two optional bounds are both absent or spellings of one bound. -/
def sameBound : Option Bound → Option Bound → Bool
  | none, none => true
  | some a, some b => a.same b
  | _, _ => false

namespace Restriction

def everything : Restriction := ⟨none, none⟩

def exactly (v : Version) : Restriction := ⟨some ⟨v, true⟩, some ⟨v, true⟩⟩

def isUnbounded (r : Restriction) : Bool := r.lower.isNone && r.upper.isNone

def contains (r : Restriction) (v : Version) : Bool :=
  r.lower.all (·.admitsAbove v) && r.upper.all (·.admitsBelow v)

def hasRoom (r : Restriction) : Bool :=
  match r.lower, r.upper with
  | some low, some high => low.admitsBetween high
  | _, _ => true

/-- The versions in both intervals, if their bounds leave room for any. -/
def intersect (r s : Restriction) : Option Restriction :=
  let met : Restriction := ⟨tighten .higher r.lower s.lower, tighten .lower r.upper s.upper⟩
  if met.hasRoom then some met else none

/-- The order of intervals by their lower bounds; at one version the inclusive bound is first. -/
def compareLower (r s : Restriction) : Ordering :=
  match r.lower, s.lower with
  | none, none => .eq
  | none, some _ => .lt
  | some _, none => .gt
  | some a, some b =>
    (a.version.compare b.version).then (Ord.compare b.inclusive a.inclusive)

def isPoint (r : Restriction) : Bool :=
  match r.lower, r.upper with
  | some low, some high => low.version.same high.version && low.inclusive && high.inclusive
  | _, _ => false

def boundText (b : Option Bound) : Text := b.elim [] (·.version.text)

/-- The written form: one version in brackets, or both bounds around a comma. -/
def text (r : Restriction) : Text :=
  if r.isPoint then '[' :: boundText r.lower ++ "]"
  else
    (if r.lower.any (·.inclusive) then "[" else "(") ++ boundText r.lower ++ "," ++
      boundText r.upper ++ (if r.upper.any (·.inclusive) then "]" else ")")

def same (r s : Restriction) : Bool := sameBound r.lower s.lower && sameBound r.upper s.upper

end Restriction

end Mediation
