import Mediation.Coordinate
import Mediation.Scope
import Mediation.Version.Rank

/-! # Artifacts

An artifact is a coordinate at a place of a dependency graph, reached from the
root by a trail of coordinates. The declared version may be symbolic or an open
snapshot; the selected version is the concrete one.
-/

namespace Mediation

/-- The coordinates from the root to an artifact. -/
abbrev Trail := List Coordinate

def Trail.text (t : Trail) : Text := Text.joinWith " -> " (t.map Coordinate.text)

/-- A coordinate placed in a dependency graph. -/
structure Artifact where
  coordinate : Coordinate
  declared : Option Version
  selected : Option Version
  scope : Scope
  optional : Bool
  trail : Trail
  resolved : Bool
  deriving DecidableEq, Repr, Inhabited

namespace Artifact

def pending (c : Coordinate) (s : Scope) (trail : Trail) : Artifact :=
  ⟨c, none, none, s, false, trail, false⟩

def root (c : Coordinate) (v : Version) : Artifact :=
  ⟨c, some v, some v, .compile, false, [c], true⟩

def key (a : Artifact) : Key := a.coordinate.key

def effective (a : Artifact) : Option Version := a.selected.or a.declared

/-- Records the selected version; a missing declared version becomes its base. -/
def select (a : Artifact) (v : Version) : Artifact :=
  { a with selected := some v, declared := a.declared.or (some v.base) }

def isSnapshot (a : Artifact) : Bool := a.effective.any Version.isSnapshot

def isSymbolic (a : Artifact) : Bool := a.declared.any Version.isSymbolic

/-- The written form: coordinate, effective version if there is one, and scope. -/
def text (a : Artifact) : Text :=
  a.coordinate.text ++ (a.effective.elim [] fun v => ':' :: v.text) ++ ':' :: a.scope.name

end Artifact

end Mediation
