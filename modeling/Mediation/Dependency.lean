import Mediation.Artifact
import Mediation.Constraint.Basic
import Mediation.Table

/-! # Declared dependencies

A descriptor lists the direct dependencies of an artifact and pins versions and
scopes of identities further below.
-/

namespace Mediation

/-- A dependency as a descriptor declares it. -/
structure Dependency where
  coordinate : Coordinate
  constraint : Constraint
  scope : Scope
  optional : Bool
  exclusions : List Exclusion
  deriving Repr

def Dependency.plain (c : Coordinate) (constraint : Constraint) : Dependency :=
  ⟨c, constraint, .compile, false, []⟩

/-- What dependency management imposes on an identity. -/
structure Pin where
  version : Option Constraint
  scope : Option Scope
  deriving DecidableEq, Repr

abbrev Management := Table Key Pin

/-- What is known about the dependencies of one version of an artifact. -/
structure Descriptor where
  dependencies : List Dependency
  management : Management
  deriving Repr

end Mediation
