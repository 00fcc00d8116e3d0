import Mediation.Constraint.Basic
import Mediation.Time.Duration
import Mediation.Transform.Basic

/-! # Failures of a resolution

A failure of a source or of a constraint belongs to one node. Only some failures
abort the whole resolution.
-/

namespace Mediation

/-- Why a source gave no answer about an artifact. -/
inductive MetadataError
  | retrieval (c : Coordinate) (reason : Text)
  | notFound (c : Coordinate) (v : Option Version)
  | unresolvable (c : Coordinate) (v : Version)
  | transform (e : TransformError)
  | timeout (c : Coordinate) (limit : Nat)
  deriving DecidableEq, Repr

def MetadataError.message : MetadataError → Text
  | retrieval c reason => "failed to retrieve metadata for " ++ c.text ++ ": " ++ reason
  | notFound c v => "no descriptor for " ++ c.text ++ ':' :: v.elim [] (·.text)
  | unresolvable c v => "cannot resolve version " ++ v.text ++ " of " ++ c.text
  | transform e => e.message
  | timeout c limit =>
    "fetching " ++ c.text ++ " timed out after " ++ Duration.text limit

inductive NodeError
  | constraint (e : ConstraintError)
  | metadata (e : MetadataError)
  deriving DecidableEq, Repr

def NodeError.message : NodeError → Text
  | constraint e => e.message
  | metadata e => e.message

/-- Why an election had no winner: the choice was none of the candidates, or was refused. -/
inductive ElectionFault
  | foreign (choice : Nat)
  | refused (reason : Text)
  deriving DecidableEq, Repr

def ElectionFault.message : ElectionFault → Text
  | foreign choice =>
    "resolver picked #" ++ Text.ofNat choice ++ ", which is not a candidate"
  | refused reason => reason

inductive ResolveError
  | requiredArtifact (a : Artifact) (e : NodeError)
  | noWinner (k : Key) (trail : Trail) (fault : ElectionFault)
  | timeout
  deriving DecidableEq, Repr

def ResolveError.message : ResolveError → Text
  | requiredArtifact a e =>
    "failed to resolve " ++ a.text ++ " (path: " ++ a.trail.text ++ "): " ++ e.message
  | noWinner k trail fault =>
    "conflict resolution for " ++ k.text ++ " produced no winner (path: " ++ trail.text ++
      "): " ++ fault.message
  | timeout => "resolution timed out"

/-- A node that failed without aborting the resolution. -/
structure Problem where
  artifact : Artifact
  error : NodeError
  deriving DecidableEq, Repr

def Problem.text (p : Problem) : Text := p.artifact.trail.text ++ ": " ++ p.error.message

end Mediation
