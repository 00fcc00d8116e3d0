import Mediation.Proofs.Settings.Layering

/-! # Repositories of settings

Usable settings give each of their repositories a name of its own. A repository can be made of a
definition with such a name unless it is the id that is reserved for the local repository, which the
check of settings lets pass. So the repositories that are made have distinct ids, and none of them
is the local one.
-/

namespace Mediation

namespace RepositoryDefinition

variable {d : RepositoryDefinition} {r : Repository}

theorem repository_eq_ok_iff : d.repository = .ok r ↔
    (Text.allBlank d.id = false ∧ d.id ≠ Repository.localId) ∧
      r = ⟨d.id, .remote d.url, d.policy⟩ := by
  constructor
  · intro h
    rw [repository] at h
    split at h
    · cases h
    · split at h
      · cases h
      · rename_i hnamed hfree
        exact ⟨⟨by simpa using hnamed, hfree⟩, (Except.ok.inj h).symm⟩
  · rintro ⟨⟨hnamed, hfree⟩, rfl⟩
    rw [repository, if_neg (by simp [hnamed]), if_neg hfree]

theorem id_of_repository (h : d.repository = .ok r) : r.id = d.id := by
  obtain ⟨-, rfl⟩ := repository_eq_ok_iff.mp h
  rfl

theorem ne_localId_of_repository (h : d.repository = .ok r) : r.id ≠ Repository.localId := by
  rw [id_of_repository h]
  exact (repository_eq_ok_iff.mp h).1.2

theorem exists_repository_iff (hnamed : Text.allBlank d.id = false) :
    (∃ r, d.repository = .ok r) ↔ d.id ≠ Repository.localId := by
  simp [repository_eq_ok_iff, hnamed]

end RepositoryDefinition

/-- The repositories that can be made of a list of definitions, in its order. -/
def Repository.madeOf (ds : List RepositoryDefinition) : List Repository :=
  ds.filterMap fun d => d.repository.toOption

namespace Repository

variable {ds : List RepositoryDefinition} {r : Repository}

theorem mem_madeOf_iff : r ∈ madeOf ds ↔ ∃ d ∈ ds, d.repository = .ok r := by
  simp only [madeOf, List.mem_filterMap]
  constructor
  · rintro ⟨d, hd, h⟩
    refine ⟨d, hd, ?_⟩
    cases hr : d.repository with
    | error err => simp [hr, Except.toOption] at h
    | ok r' => simp_all [Except.toOption]
  · rintro ⟨d, hd, h⟩
    exact ⟨d, hd, by simp [h, Except.toOption]⟩

theorem ids_madeOf (ds : List RepositoryDefinition) :
    ((madeOf ds).map (·.id)).Sublist (ds.map (·.id)) := by
  induction ds with
  | nil => exact .slnil
  | cons d ds ih =>
    cases hr : d.repository with
    | error err => simpa [madeOf, hr, Except.toOption] using ih.cons d.id
    | ok r =>
      have hid := RepositoryDefinition.id_of_repository hr
      simpa [madeOf, hr, Except.toOption, hid] using ih.cons_cons d.id

end Repository

namespace Settings

variable {s : Settings}

/-- Of the repositories of usable settings exactly those cannot be made that take the id of the
local one. Those that are made have distinct ids, other than that of the local repository. -/
theorem repositories_of_validate (hvalid : s.validate = .ok ()) (path : Text) :
    (∀ d ∈ s.repositories, (∃ r, d.repository = .ok r) ↔ d.id ≠ Repository.localId) ∧
      ((.inDirectory path :: Repository.madeOf s.repositories).map (·.id)).Nodup := by
  have husable := validate_eq_ok_iff.mp hvalid
  constructor
  · intro d hd
    exact RepositoryDefinition.exists_repository_iff (husable.named d hd)
  · rw [List.map_cons, List.nodup_cons]
    constructor
    · rw [List.mem_map]
      rintro ⟨r, hr, hid⟩
      obtain ⟨d, -, hmade⟩ := Repository.mem_madeOf_iff.mp hr
      exact RepositoryDefinition.ne_localId_of_repository hmade hid
    · exact husable.distinct.sublist (Repository.ids_madeOf s.repositories)

def sampleDefinition (id : Text) : RepositoryDefinition := ⟨id, .ofDirectory "/mirror", .daily⟩

def shadowing : Settings :=
  { standard with
    repositories :=
      [sampleDefinition "mirror", sampleDefinition "local", sampleDefinition "Local"] }

theorem repositories_of_validate_of_shadowing :
    shadowing.validate = .ok () ∧ (∃ r, (sampleDefinition "Local").repository = .ok r) ∧
      (¬ ∃ r, (sampleDefinition "local").repository = .ok r) ∧
      ([Repository.localId, "mirror".toList, "Local".toList] : List Text).Nodup := by
  have hvalid : shadowing.validate = .ok () := by rfl
  obtain ⟨hmade, hdistinct⟩ := repositories_of_validate hvalid "/m2"
  refine ⟨hvalid, ?_, ?_, hdistinct⟩
  · exact (hmade (sampleDefinition "Local") (by simp [shadowing])).mpr (by decide)
  · exact fun hlocal => (hmade (sampleDefinition "local") (by simp [shadowing])).mp hlocal rfl

end Settings

end Mediation
