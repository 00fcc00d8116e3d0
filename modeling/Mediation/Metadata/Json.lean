import Mediation.Json.Printer
import Mediation.Json.Reader
import Mediation.Metadata.Envelope

/-! # Envelopes as JSON

The form in which repositories keep envelopes. Both ids are required; every other
field has a default, and unknown fields are ignored.
-/

namespace Mediation

namespace SnapshotRecord

def fieldNames : List Text := ["timestamp", "buildNumber", "localCopy"]

def toJson (r : SnapshotRecord) : Json :=
  .object (fieldNames.zip
    [.ofOption .string r.timestamp, .ofNat r.buildNumber.toNat, .bool r.localCopy])

def ofJson? (j : Json) : Option SnapshotRecord := do
  match ← j.fields? fieldNames with
  | [timestamp, buildNumber, localCopy] =>
    let timestamp ← Json.orDefault? none (Json.optional? Json.text?) timestamp
    let buildNumber ← Json.orDefault? 0 (Json.natBelow? Text.word32) buildNumber
    let localCopy ← Json.orDefault? false Json.bool? localCopy
    return ⟨timestamp, .ofNat buildNumber, localCopy⟩
  | _ => none

end SnapshotRecord

namespace Versioning

def fieldNames : List Text := ["latest", "release", "versions", "lastUpdated", "snapshot"]

def toJson (v : Versioning) : Json :=
  .object (fieldNames.zip
    [.ofOption .string v.latest, .ofOption .string v.release, .ofTexts v.versions,
      .ofOption .string v.lastUpdated, .ofOption SnapshotRecord.toJson v.snapshot])

def ofJson? (j : Json) : Option Versioning := do
  match ← j.fields? fieldNames with
  | [latest, release, versions, lastUpdated, snapshot] =>
    let latest ← Json.orDefault? none (Json.optional? Json.text?) latest
    let release ← Json.orDefault? none (Json.optional? Json.text?) release
    let versions ← Json.orDefault? [] Json.texts? versions
    let lastUpdated ← Json.orDefault? none (Json.optional? Json.text?) lastUpdated
    let snapshot ← Json.orDefault? none (Json.optional? SnapshotRecord.ofJson?) snapshot
    return ⟨latest, release, versions, lastUpdated, snapshot⟩
  | _ => none

end Versioning

namespace Envelope

def fieldNames : List Text := ["groupId", "artifactId", "version", "versioning"]

def toJson (e : Envelope) : Json :=
  .object (fieldNames.zip
    [.string e.group, .string e.artifact, .ofOption .string e.version, e.versioning.toJson])

def ofJson? (j : Json) : Option Envelope := do
  match ← j.fields? fieldNames with
  | [group, artifact, version, versioning] =>
    let group ← Json.required? Json.text? group
    let artifact ← Json.required? Json.text? artifact
    let version ← Json.orDefault? none (Json.optional? Json.text?) version
    let versioning ← Json.orDefault? .empty Versioning.ofJson? versioning
    return ⟨group, artifact, version, versioning⟩
  | _ => none

def document (e : Envelope) : Text := e.toJson.pretty

def ofDocument? (t : Text) : Option Envelope := (Json.read? t).bind ofJson?

end Envelope

end Mediation
