import Mediation.Artifact.Json
import Mediation.Proofs.Coordinate.Rereading
import Mediation.Proofs.Json.Field
import Mediation.Proofs.Json.Record

/-! # Artifacts that are written and read

Coordinates, identities and exclusions are read from the texts they are written as, if they were
read from a text before. The record of an artifact holds such texts, the versions as they are, and
a trail of any length, so it is read as the artifact it was made of, also where it was printed.
-/

namespace Mediation

theorem Json.readString?_string {ε α : Type} {reader : Text → Except ε α} {t : Text} {a : α}
    (h : reader t = .ok a) : Json.readString? reader (.string t) = some a := by
  simp [Json.readString?, Json.text?, h, Except.toOption]

theorem Version.optional?_ofOption (v : Option Version) :
    Json.optional? ofJson? (.ofOption toJson v) = some v :=
  Json.optional?_ofOption (by simp [toJson]) (by simp [ofJson?, toJson, Json.text?]) v

theorem Scope.ofJson?_toJson (s : Scope) : ofJson? s.toJson = some s := by
  cases s <;> rfl

theorem Coordinate.ofJson?_toJson {c : Coordinate} (h : AreColonParts c.parts) :
    ofJson? c.toJson = some c :=
  Json.readString?_string (read_text h)

theorem Trail.ofJson?_toJson {trail : Trail} (h : ∀ c ∈ trail, AreColonParts c.parts) :
    ofJson? (toJson trail) = some trail :=
  Json.list?_map fun c hc => Coordinate.ofJson?_toJson (h c hc)

namespace Artifact

theorem ofJson?_toJson {a : Artifact} (hcoordinate : AreColonParts a.coordinate.parts)
    (htrail : ∀ c ∈ a.trail, AreColonParts c.parts) : ofJson? a.toJson = some a := by
  have hfields : a.toJson.fields? fieldNames = some [some a.coordinate.toJson,
      some (.ofOption Version.toJson a.declared), some (.ofOption Version.toJson a.selected),
      some a.scope.toJson, some (.bool a.optional), some (Trail.toJson a.trail),
      some (.bool a.resolved)] := Json.fields?_object (by decide) rfl
  rw [ofJson?, hfields]
  simp [Json.required?, Json.orDefault?, Json.bool?, Coordinate.ofJson?_toJson hcoordinate,
    Version.optional?_ofOption, Scope.ofJson?_toJson, Trail.ofJson?_toJson htrail]

theorem legible_toJson (a : Artifact) : a.toJson.Legible := by
  apply Json.Legible.zip
  simp only [List.forall_mem_cons, List.not_mem_nil, false_implies, implies_true, and_true]
  exact ⟨.string, .ofOption (fun _ => .string) _, .ofOption (fun _ => .string) _, .string, .bool,
    .map (fun _ => .string) _, .bool⟩

/-- Identities, exclusions and coordinates that were read from a text are read again from the text
they are written as. An artifact with such coordinates on it and on its trail is read again from
its record, and from the text that the record is printed as. -/
theorem texts_are_reread :
    (∀ t k, Key.read t = .ok k → Key.read k.text = .ok k) ∧
    (∀ t e, Exclusion.read t = .ok e → Exclusion.read e.text = .ok e) ∧
    (∀ t c, Coordinate.read t = .ok c → Coordinate.read c.text = .ok c) ∧
    ∀ a : Artifact, (∃ t, Coordinate.read t = .ok a.coordinate) →
      (∀ c ∈ a.trail, ∃ t, Coordinate.read t = .ok c) →
        ofJson? a.toJson = some a ∧ (Json.read? a.toJson.pretty).bind ofJson? = some a := by
  refine ⟨?_, ?_, ?_, ?_⟩
  · intro t k h
    exact Key.read_text (Key.areColonParts_of_read h)
  · intro t e h
    exact Exclusion.read_text h
  · intro t c h
    exact Coordinate.read_text (Coordinate.areColonParts_of_read h)
  · rintro a ⟨t, ht⟩ htrail
    have hread : ofJson? a.toJson = some a := by
      apply ofJson?_toJson (Coordinate.areColonParts_of_read ht)
      intro c hc
      obtain ⟨u, hu⟩ := htrail c hc
      exact Coordinate.areColonParts_of_read hu
    refine ⟨hread, ?_⟩
    rw [a.legible_toJson.read?_pretty, Option.bind_some, hread]

def spaced : Artifact :=
  ⟨⟨"g ", " a", "jar", none⟩, some ⟨" 1.0 "⟩, none, .runtime, true,
    [⟨"g", "app", "war", some "x y"⟩, ⟨"g ", " a", "jar", none⟩], false⟩

theorem texts_are_reread_of_spaced :
    Key.read " g : a\n" = .ok spaced.key ∧ Key.read spaced.key.text = .ok spaced.key ∧
      Exclusion.read "* :a " = .ok ⟨"* ", "a"⟩ ∧ Exclusion.read "* :a" = .ok ⟨"* ", "a"⟩ ∧
      Coordinate.read " g : a " = .ok spaced.coordinate ∧
      Coordinate.read "g : a:jar" = .ok spaced.coordinate ∧
      ofJson? spaced.toJson = some spaced := by
  obtain ⟨hkeys, hexclusions, hcoordinates, hartifacts⟩ := texts_are_reread
  have hkey : Key.read " g : a\n" = .ok spaced.key := by rfl
  have hexclusion : Exclusion.read "* :a " = .ok ⟨"* ", "a"⟩ := by rfl
  have hcoordinate : Coordinate.read " g : a " = .ok spaced.coordinate := by rfl
  have hwar : Coordinate.read "g:app:war:x y" = .ok ⟨"g", "app", "war", some "x y"⟩ := by rfl
  have htrail : ∀ c ∈ spaced.trail, ∃ t, Coordinate.read t = .ok c := by
    intro c hc
    rcases List.mem_pair.mp hc with rfl | rfl
    · exact ⟨_, hwar⟩
    · exact ⟨_, hcoordinate⟩
  exact ⟨hkey, hkeys _ _ hkey, hexclusion, hexclusions _ _ hexclusion, hcoordinate,
    hcoordinates _ _ hcoordinate, (hartifacts spaced ⟨_, hcoordinate⟩ htrail).1⟩

end Artifact

end Mediation
