import Mediation.Metadata.Json
import Mediation.Proofs.Json.Field
import Mediation.Proofs.Json.Record

/-! # Envelopes that are written and read

The record of an envelope has all its fields, each under a name of its own, so it is read as the
fields it was made of. Printed and read again it is the same envelope.
-/

namespace Mediation

theorem SnapshotRecord.ofJson?_toJson (r : SnapshotRecord) : ofJson? r.toJson = some r := by
  have hfields : r.toJson.fields? fieldNames = some [some (.ofOption .string r.timestamp),
      some (.ofNat r.buildNumber.toNat), some (.bool r.localCopy)] :=
    Json.fields?_object (by decide) rfl
  have hnumber : Json.natBelow? Text.word32 (.ofNat r.buildNumber.toNat) =
      some r.buildNumber.toNat := Json.natBelow?_ofNat r.buildNumber.toNat_lt
  rw [ofJson?, hfields]
  simp [Json.orDefault?, Json.text?_ofOption, hnumber, Json.bool?]

theorem SnapshotRecord.optional?_ofOption (r : Option SnapshotRecord) :
    Json.optional? ofJson? (.ofOption toJson r) = some r :=
  Json.optional?_ofOption (by simp [toJson]) ofJson?_toJson r

theorem Versioning.ofJson?_toJson (v : Versioning) : ofJson? v.toJson = some v := by
  have hfields : v.toJson.fields? fieldNames = some [some (.ofOption .string v.latest),
      some (.ofOption .string v.release), some (.ofTexts v.versions),
      some (.ofOption .string v.lastUpdated),
      some (.ofOption SnapshotRecord.toJson v.snapshot)] := Json.fields?_object (by decide) rfl
  rw [ofJson?, hfields]
  simp [Json.orDefault?, Json.text?_ofOption, Json.texts?_ofTexts,
    SnapshotRecord.optional?_ofOption]

theorem Envelope.ofJson?_toJson (e : Envelope) : ofJson? e.toJson = some e := by
  have hfields : e.toJson.fields? fieldNames = some [some (.string e.group),
      some (.string e.artifact), some (.ofOption .string e.version), some e.versioning.toJson] :=
    Json.fields?_object (by decide) rfl
  rw [ofJson?, hfields]
  simp [Json.required?, Json.text?, Json.orDefault?, Json.text?_ofOption,
    Versioning.ofJson?_toJson]

theorem SnapshotRecord.legible_toJson (r : SnapshotRecord) : r.toJson.Legible := by
  apply Json.Legible.zip
  simp only [List.forall_mem_cons, List.not_mem_nil, false_implies, implies_true, and_true]
  exact ⟨.ofOption (fun _ => .string) _, .number (Json.isSpelling_ofNat _), .bool⟩

theorem Versioning.legible_toJson (v : Versioning) : v.toJson.Legible := by
  apply Json.Legible.zip
  simp only [List.forall_mem_cons, List.not_mem_nil, false_implies, implies_true, and_true]
  exact ⟨.ofOption (fun _ => .string) _, .ofOption (fun _ => .string) _, .ofTexts _,
    .ofOption (fun _ => .string) _, .ofOption SnapshotRecord.legible_toJson _⟩

theorem Envelope.legible_toJson (e : Envelope) : e.toJson.Legible := by
  apply Json.Legible.zip
  simp only [List.forall_mem_cons, List.not_mem_nil, false_implies, implies_true, and_true]
  exact ⟨.string, .string, .ofOption (fun _ => .string) _, e.versioning.legible_toJson⟩

theorem Envelope.ofDocument?_document (e : Envelope) : ofDocument? e.document = some e := by
  rw [ofDocument?, document, e.legible_toJson.read?_pretty]
  exact e.ofJson?_toJson

end Mediation
