import Mediation.Repository.Basic
import Mediation.Settings.Value
import Mediation.Url.Reader

/-! # Settings

What a resolution can be told: its policy, its limits, the classpath it is for
and the repositories it reads.
-/

namespace Mediation

/-- The settings of a resolution. A timeout of zero seconds means none. -/
structure Settings where
  policy : Policy
  offline : Bool
  strict : Bool
  maxFetches : Nat
  fetchTimeout : Nat
  resolutionTimeout : Nat
  scopeFilter : Option Scope
  localRepository : Option Text
  repositories : List RepositoryDefinition
  deriving DecidableEq, Repr

namespace Settings

def central : List RepositoryDefinition :=
  ((Url.read? "https://repo.maven.apache.org/maven2").map fun url =>
    ⟨"central", url, .daily⟩).toList

def standard : Settings := ⟨.nearest, false, false, 16, 30, 300, none, none, central⟩

/-- The first fault of a list of repository ids, given the ids before them. -/
def idFault? (seen : List Text) : List Text → Option SettingsFault
  | [] => none
  | id :: rest =>
    if Text.allBlank id then some .emptyId
    else if seen.contains id then some (.duplicateId id)
    else idFault? (id :: seen) rest

def fault? (s : Settings) : Option SettingsFault :=
  if s.maxFetches = 0 then some .noFetches
  else idFault? [] (s.repositories.map (·.id))

def validate (s : Settings) : Except SettingsError Unit :=
  match s.fault? with
  | some fault => .error (.unusable fault)
  | none => .ok ()

end Settings

end Mediation
