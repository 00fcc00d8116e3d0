import Mediation.Artifact
import Mediation.Constraint.Reader
import Mediation.Json.Basic

/-! # Artifacts as JSON

Versions, constraints, coordinates, identities and exclusions are strings in their
written form, and scopes are strings by name. An artifact is a record of them.
-/

namespace Mediation

namespace Json

def readString? {ε α : Type} (reader : Text → Except ε α) (j : Json) : Option α := do
  (reader (← j.text?)).toOption

end Json

namespace Version

def toJson (v : Version) : Json := .string v.text

def ofJson? (j : Json) : Option Version := j.text?.map .mk

end Version

namespace Constraint

def toJson (c : Constraint) : Json := .string c.text

def ofJson? : Json → Option Constraint := Json.readString? read

end Constraint

namespace Coordinate

def toJson (c : Coordinate) : Json := .string c.text

def ofJson? : Json → Option Coordinate := Json.readString? read

end Coordinate

namespace Key

def toJson (k : Key) : Json := .string k.text

def ofJson? : Json → Option Key := Json.readString? read

end Key

namespace Exclusion

def toJson (e : Exclusion) : Json := .string e.text

def ofJson? : Json → Option Exclusion := Json.readString? read

end Exclusion

namespace Scope

def toJson (s : Scope) : Json := .string s.name

def ofJson? (j : Json) : Option Scope := j.variant?.bind ofName?

end Scope

namespace Trail

def toJson (t : Trail) : Json := .array (t.map Coordinate.toJson)

def ofJson? : Json → Option Trail := Json.list? Coordinate.ofJson?

end Trail

namespace Artifact

def fieldNames : List Text :=
  ["coordinate", "base_version", "version", "scope", "optional", "trail", "resolved"]

def toJson (a : Artifact) : Json :=
  .object (fieldNames.zip
    [a.coordinate.toJson, .ofOption Version.toJson a.declared, .ofOption Version.toJson a.selected,
      a.scope.toJson, .bool a.optional, Trail.toJson a.trail, .bool a.resolved])

/-- Reads the JSON form, in which only the versions may be missing. -/
def ofJson? (j : Json) : Option Artifact := do
  match ← j.fields? fieldNames with
  | [coordinate, declared, selected, scope, optional, trail, resolved] =>
    let coordinate ← Json.required? Coordinate.ofJson? coordinate
    let declared ← Json.orDefault? none (Json.optional? Version.ofJson?) declared
    let selected ← Json.orDefault? none (Json.optional? Version.ofJson?) selected
    let scope ← Json.required? Scope.ofJson? scope
    let optional ← Json.required? Json.bool? optional
    let trail ← Json.required? Trail.ofJson? trail
    let resolved ← Json.required? Json.bool? resolved
    return ⟨coordinate, declared, selected, scope, optional, trail, resolved⟩
  | _ => none

end Artifact

end Mediation
