import Mediation.Artifact.Json
import Mediation.Json.Reader
import Mediation.Settings.Basic

/-! # Settings as JSON

The form of a settings file. Every field of the settings has a default, unknown
fields are ignored, and a repository needs an id and a URL.
-/

namespace Mediation

namespace RepositoryDefinition

def fieldNames : List Text := ["id", "url", "update-policy"]

def toJson (d : RepositoryDefinition) : Json :=
  .object (fieldNames.zip [.string d.id, .string d.url.text, .string d.policy.text])

def ofJson? (j : Json) : Option RepositoryDefinition := do
  match ← j.fields? fieldNames with
  | [id, url, policy] =>
    let id ← Json.required? Json.text? id
    let url ← Json.required? (fun j => j.text?.bind Url.read?) url
    let policy ← Json.orDefault? .daily (fun j => j.text?.bind UpdatePolicy.read?) policy
    return ⟨id, url, policy⟩
  | _ => none

end RepositoryDefinition

namespace Settings

def fieldNames : List Text :=
  ["conflict-policy", "offline", "strict", "max-concurrent-fetches", "fetch-timeout-secs",
    "resolution-timeout-secs", "scope-filter", "local-repository", "repositories"]

def toJson (s : Settings) : Json :=
  .object (fieldNames.zip
    [.string s.policy.name, .bool s.offline, .bool s.strict, .ofNat s.maxFetches,
      .ofNat s.fetchTimeout, .ofNat s.resolutionTimeout,
      .ofOption Scope.toJson s.scopeFilter,
      .ofOption .string s.localRepository,
      .array (s.repositories.map RepositoryDefinition.toJson)])

def policyOfJson? (j : Json) : Option Policy := j.variant?.bind Policy.ofName?

def ofJson? (j : Json) : Option Settings := do
  match ← j.fields? fieldNames with
  | [policy, offline, strict, maxFetches, fetchTimeout, resolutionTimeout, scopeFilter,
      localRepository, repositories] =>
    let word64 := Json.natBelow? Text.word64
    let policy ← Json.orDefault? standard.policy policyOfJson? policy
    let offline ← Json.orDefault? standard.offline Json.bool? offline
    let strict ← Json.orDefault? standard.strict Json.bool? strict
    let maxFetches ← Json.orDefault? standard.maxFetches word64 maxFetches
    let fetchTimeout ← Json.orDefault? standard.fetchTimeout word64 fetchTimeout
    let resolutionTimeout ← Json.orDefault? standard.resolutionTimeout word64 resolutionTimeout
    let scopeFilter ← Json.orDefault? none (Json.optional? Scope.ofJson?) scopeFilter
    let localRepository ← Json.orDefault? none (Json.optional? Json.text?) localRepository
    let repositories ← Json.orDefault? standard.repositories
      (Json.list? RepositoryDefinition.ofJson?) repositories
    return ⟨policy, offline, strict, maxFetches, fetchTimeout, resolutionTimeout, scopeFilter,
      localRepository, repositories⟩
  | _ => none

def ofDocument (t : Text) : Except SettingsError Settings :=
  match (Json.read? t).bind ofJson? with
  | some s => .ok s
  | none => .error .malformed

end Settings

end Mediation
