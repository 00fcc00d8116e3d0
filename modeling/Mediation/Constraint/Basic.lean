import Mediation.Constraint.Restriction

/-! # Version constraints

A constraint recommends a version or not, and admits the versions of a list of
intervals. A *soft* constraint recommends a version and admits every other; a
*range* recommends none.
-/

namespace Mediation

/-- What can be wrong with the text of a range. -/
inductive RangeFault
  | emptySpecification
  | unclosed
  | overlapping
  | mixed
  | bareVersion
  | emptyVersion
  | tooManyBounds
  | identicalBounds
  | reversedBounds
  deriving DecidableEq, Repr

def RangeFault.message : RangeFault → Text
  | emptySpecification => "empty specification"
  | unclosed => "unbounded range"
  | overlapping => "ranges overlap"
  | mixed => "only fully-qualified sets allowed in multiple set scenario"
  | bareVersion => "single version must be surrounded by []"
  | emptyVersion => "empty version"
  | tooManyBounds => "too many bounds"
  | identicalBounds => "range cannot have identical boundaries"
  | reversedBounds => "range defies version ordering"

/-- Why a constraint could not be read, combined or satisfied. -/
inductive ConstraintError
  | invalidRange (spec : Text) (fault : RangeFault)
  | noOverlap (left right : Text)
  | noVersionInRange (constraint : Text) (available : List Text)
  deriving DecidableEq, Repr

def ConstraintError.message : ConstraintError → Text
  | invalidRange spec fault => "invalid version range '" ++ spec ++ "': " ++ fault.message
  | noOverlap left right =>
    "version constraints " ++ left ++ " and " ++ right ++ " do not overlap"
  | noVersionInRange constraint available =>
    "no version satisfies " ++ constraint ++ " (available: " ++
      Text.joinWith ", " available ++ ")"

/-- An optional recommendation and the intervals of acceptable versions. -/
structure Constraint where
  recommended : Option Version
  restrictions : List Restriction
  deriving DecidableEq, Repr

namespace Constraint

/-- Recommends a version and admits every other. -/
def soft (v : Version) : Constraint := ⟨some v, [.everything]⟩

def exact (v : Version) : Constraint := ⟨none, [.exactly v]⟩

/-- Whether a version has to be chosen among the acceptable ones. -/
def isRange (c : Constraint) : Bool := c.recommended.isNone

def isSoft (c : Constraint) : Bool :=
  c.recommended.isSome && c.restrictions.all Restriction.isUnbounded

def contains (c : Constraint) (v : Version) : Bool := c.restrictions.any (·.contains v)

/-- The written form: the recommendation, or the intervals with commas between them. -/
def text (c : Constraint) : Text :=
  match c.recommended with
  | some v => v.text
  | none => Text.joinWith "," (c.restrictions.map Restriction.text)

/-- The better of the version found so far and the next one; an equal one does not replace it. -/
def better (best : Option Version) (v : Version) : Option Version :=
  match best with
  | none => some v
  | some b => if b.precedes v then some v else some b

def highest (c : Constraint) (available : List Version) : Option Version :=
  (available.filter c.contains).foldl better none

/-- The highest acceptable version, or an error that lists what was available. -/
def select (c : Constraint) (available : List Version) : Except ConstraintError Version :=
  match c.highest available with
  | some v => .ok v
  | none => .error (.noVersionInRange c.text (available.map (·.text)))

/-- All meetings of an interval of one list with an interval of the other, in ascending order. -/
def meet (rs ss : List Restriction) : List Restriction :=
  (rs.flatMap fun r => ss.filterMap r.intersect).mergeSort fun r s => r.compareLower s != .gt

def keepRecommended (restrictions : List Restriction) (mine theirs : Option Version) :
    Option Version :=
  let acceptable (v : Version) : Bool := restrictions.any (·.contains v)
  (mine.filter acceptable).or (theirs.filter acceptable)

/-- The versions that both constraints admit, with the first acceptable recommendation. -/
def intersect (c d : Constraint) : Except ConstraintError Constraint :=
  match meet c.restrictions d.restrictions with
  | [] => .error (.noOverlap c.text d.text)
  | met => .ok ⟨keepRecommended met c.recommended d.recommended, met⟩

def same (c d : Constraint) : Bool :=
  (match c.recommended, d.recommended with
    | none, none => true
    | some v, some w => v.same w
    | _, _ => false) &&
  c.restrictions.length == d.restrictions.length &&
  (c.restrictions.zip d.restrictions).all fun (r, s) => r.same s

end Constraint

end Mediation
