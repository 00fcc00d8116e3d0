import Mediation.Settings.Json

/-! # Layers of settings

Settings are the defaults or those of a file, with the variables of the
environment on top of them and explicit overrides on top of both. Only usable
settings come out.
-/

namespace Mediation

/-- The settings file: there is none, its bytes are no text, or its text. -/
inductive SettingsFile
  | absent
  | unreadable
  | present (text : Text)
  deriving DecidableEq, Repr

def SettingsFile.read : SettingsFile → Except SettingsError Settings
  | absent => .error .unreadable
  | unreadable => .error .unreadable
  | present text => Settings.ofDocument text

/-- The settings of a file, or the defaults if there is none. -/
def SettingsFile.orStandard : SettingsFile → Except SettingsError Settings
  | absent => .ok .standard
  | file => file.read

abbrev Environment := Text → Option Text

structure EnvironmentLayer where
  offline : Option Bool
  strict : Option Bool
  policy : Option Policy
  maxFetches : Option Nat
  fetchTimeout : Option Nat
  resolutionTimeout : Option Nat
  scopeFilter : Option Scope
  localRepository : Option Text
  deriving DecidableEq, Repr

namespace EnvironmentLayer

/-- The value of a variable, which a blank one does not have. -/
def value? (env : Environment) (key : Text) : Option Text :=
  (env key).filter (!Text.allBlank ·)

def readValue {α : Type} (env : Environment) (key : Text)
    (read : Text → Text → Except SettingsError α) : Except SettingsError (Option α) :=
  match value? env key with
  | none => .ok none
  | some t => (read key t).map some

def readCount (key t : Text) : Except SettingsError Nat :=
  Setting.orInvalid key t .count (Setting.count? t)

def readScope (key t : Text) : Except SettingsError Scope :=
  Setting.orInvalid key t .scope (Scope.read? t)

/-- Reads the variables one after the other, up to the first one that does not read. -/
def read (env : Environment) : Except SettingsError EnvironmentLayer := do
  let offline ← readValue env "MAESTRO_OFFLINE" Setting.readSwitch
  let strict ← readValue env "MAESTRO_STRICT" Setting.readSwitch
  let policy ← readValue env "MAESTRO_CONFLICT_POLICY" Setting.readPolicy
  let maxFetches ← readValue env "MAESTRO_MAX_CONCURRENT_FETCHES" readCount
  let fetchTimeout ← readValue env "MAESTRO_FETCH_TIMEOUT" Setting.readDuration
  let resolutionTimeout ← readValue env "MAESTRO_RESOLUTION_TIMEOUT" Setting.readDuration
  let scopeFilter ← readValue env "MAESTRO_SCOPE" readScope
  let localRepository ← readValue env "MAESTRO_LOCAL_REPOSITORY" fun _ t => .ok t.trim
  return ⟨offline, strict, policy, maxFetches, fetchTimeout, resolutionTimeout, scopeFilter,
    localRepository⟩

def apply (l : EnvironmentLayer) (s : Settings) : Settings :=
  { s with
    offline := l.offline.getD s.offline
    strict := l.strict.getD s.strict
    policy := l.policy.getD s.policy
    maxFetches := l.maxFetches.getD s.maxFetches
    fetchTimeout := l.fetchTimeout.getD s.fetchTimeout
    resolutionTimeout := l.resolutionTimeout.getD s.resolutionTimeout
    scopeFilter := l.scopeFilter.or s.scopeFilter
    localRepository := l.localRepository.or s.localRepository }

end EnvironmentLayer

/-- Explicit overrides, and repositories to read after the configured ones. -/
structure Overrides where
  offline : Option Bool
  strict : Option Bool
  policy : Option Policy
  scopeFilter : Option Scope
  extraRepositories : List RepositoryDefinition
  deriving DecidableEq, Repr

def Overrides.apply (o : Overrides) (s : Settings) : Settings :=
  { s with
    offline := o.offline.getD s.offline
    strict := o.strict.getD s.strict
    policy := o.policy.getD s.policy
    scopeFilter := o.scopeFilter.or s.scopeFilter
    repositories := s.repositories ++ o.extraRepositories }

/-- The settings of a file under an environment, unless that is not to be read, and under
overrides. -/
def Settings.load (file : SettingsFile) (env : Option Environment) (overrides : Overrides) :
    Except SettingsError Settings := do
  let s ← file.orStandard
  let s ← match env with
    | none => pure s
    | some env => (EnvironmentLayer.read env).map (·.apply s)
  let s := overrides.apply s
  s.validate
  return s

end Mediation
