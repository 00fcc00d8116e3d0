import Mediation.Dependency
import Mediation.Failure
import Mediation.Transform.Pipeline

/-! # Sources

A source tells the dependencies of an artifact, the versions that exist, and
what a symbolic version or an open snapshot stands for. To be asked may change
the state of a source.
-/

namespace Mediation

abbrev SourceAnswer (α : Type) := Except MetadataError α

/-- A source with states `σ`. Descriptors and lists of versions take `latency` milliseconds. -/
structure Source (σ : Type) where
  latency : Nat
  retrieve : Artifact → σ → SourceAnswer Descriptor × σ
  versions : Coordinate → σ → SourceAnswer (List Version) × σ
  concretize : Artifact → σ → SourceAnswer Version × σ

namespace Source

/-- The version of an artifact as it is, unless it is symbolic. -/
def plainVersion (a : Artifact) : SourceAnswer Version :=
  match a.effective with
  | none => .error (.transform (.missingVersion a.coordinate))
  | some v => if v.isSymbolic then .error (.unresolvable a.coordinate v) else .ok v

variable {σ : Type}

def plain (s : Source σ) : Source σ := { s with concretize := fun a st => (plainVersion a, st) }

def transforming {τ : Type} [Store τ] (s : Source σ) (p : Pipeline) (rs : List Repository)
    (now : Moment) : Source (σ × Registry τ) where
  latency := s.latency
  retrieve a st := ((s.retrieve a st.1).1, (s.retrieve a st.1).2, st.2)
  versions c st := ((s.versions c st.1).1, (s.versions c st.1).2, st.2)
  concretize a st :=
    match p.run a rs now st.2 with
    | (.error e, g) => (.error (.transform e), st.1, g)
    | (.ok v, g) => (.ok v, st.1, g)

end Source

end Mediation
