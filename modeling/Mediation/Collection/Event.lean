import Mediation.Dependency

/-! # Events

What a resolution tells about its decisions. Each event holds the artifacts as
they were when the decision was made.
-/

namespace Mediation

inductive Event
  | considered (a : Artifact)
  | expanding (a : Artifact)
  | expanded (a : Artifact)
  | included (a : Artifact)
  | omittedForConflict (a : Artifact) (kept : Artifact)
  | omittedForCycle (a : Artifact)
  | scopeWidened (a : Artifact) (scope : Scope)
  | scopeKept (a : Artifact) (ignored : Scope)
  | managed (a : Artifact) (pin : Pin)
  | narrowed (a : Artifact) (newcomer : Artifact) (constraint : Constraint)
  | chosenFromRange (a : Artifact)
  deriving DecidableEq, Repr

namespace Event

def name : Event → Text
  | considered _ => "testArtifact"
  | expanding _ => "startProcessChildren"
  | expanded _ => "endProcessChildren"
  | included _ => "includeArtifact"
  | omittedForConflict _ _ => "omitForNearer"
  | omittedForCycle _ => "omitForCycle"
  | scopeWidened _ _ => "updateScope"
  | scopeKept _ _ => "updateScopeCurrentPom"
  | managed _ _ => "manageArtifact"
  | narrowed _ _ _ => "restrictRange"
  | chosenFromRange _ => "selectVersionFromRange"

def artifact : Event → Artifact
  | considered a => a
  | expanding a => a
  | expanded a => a
  | included a => a
  | omittedForConflict a _ => a
  | omittedForCycle a => a
  | scopeWidened a _ => a
  | scopeKept a _ => a
  | managed a _ => a
  | narrowed a _ _ => a
  | chosenFromRange a => a

end Event

end Mediation
