import Mathlib.Data.Nat.Notation
import Mediation.Proofs.Time.Calendar
import Mediation.Proofs.Transform.Encoding
import Mediation.Proofs.Transform.Publication
import Mediation.Proofs.Version.Build

/-! # Builds in succession

Each publication reads the number that the one before it has stored, whatever the registry has at
hand, so the numbers of builds count up. As moments do not go back, and the day and the time of a
build are written in texts of one length, builds sort in the order of their publication.
-/

namespace Mediation

namespace Build

variable {stem : Text} {m n : Moment} {k l : ℕ} {ms : List Moment}

def stamped (stem : Text) (m : Moment) (k : ℕ) : Build :=
  ⟨stem, m.date.text, m.clockText, Text.ofNat k⟩

theorem isPlain_stamped (hstem : '\n' ∉ stem) (hm : m.date.HasFourDigitYear) (k : ℕ) :
    (stamped stem m k).IsPlain where
  base := hstem
  length_day := Date.length_text hm
  digits_day := Date.all_isDigit_text hm
  length_time := m.length_clockText
  digits_time := m.all_isDigit_clockText
  number_ne := Text.ofNat_ne_nil k
  digits_number := Text.all_isDigit_ofNat k

/-- A build with a greater number at no earlier moment is the newer one. -/
theorem compare_stamped (hstem : '\n' ∉ stem) (hm : m.date.HasFourDigitYear)
    (hn : n.date.HasFourDigitYear) (hmn : m ≤ n) (hkl : k < l) :
    Version.compare ⟨(stamped stem m k).text⟩ ⟨(stamped stem n l).text⟩ = .lt := by
  rw [Version.compare_build (isPlain_stamped hstem hm k) (isPlain_stamped hstem hn l) rfl]
  have hnumber : compare (Text.value (Text.ofNat k)) (Text.value (Text.ofNat l)) = .lt := by
    rw [Text.value_ofNat, Text.value_ofNat]
    exact Nat.compare_eq_lt.mpr hkl
  change (compare (Text.value m.date.text) (Text.value n.date.text)).then
    ((compare (Text.value m.clockText) (Text.value n.clockText)).then
      (compare (Text.value (Text.ofNat k)) (Text.value (Text.ofNat l)))) = .lt
  rw [hnumber]
  rcases Moment.value_le_of_le hm hn hmn with hday | ⟨hday, htime⟩
  · rw [Nat.compare_eq_lt.mpr hday]
    rfl
  · rw [Nat.compare_eq_eq.mpr hday]
    rcases Nat.lt_or_eq_of_le htime with hlt | heq
    · rw [Nat.compare_eq_lt.mpr hlt]
      rfl
    · rw [Nat.compare_eq_eq.mpr heq]
      rfl

def successive (stem : Text) : ℕ → List Moment → List Build
  | _, [] => []
  | k, m :: ms => stamped stem m k :: successive stem (k + 1) ms

theorem eq_of_mem_successive {b : Build} (hb : b ∈ successive stem k ms) :
    ∃ m ∈ ms, ∃ l, k ≤ l ∧ b = stamped stem m l := by
  induction ms generalizing k with
  | nil => cases hb
  | cons m ms ih =>
    rcases List.mem_cons.mp hb with rfl | hb
    · exact ⟨m, List.mem_cons_self, k, Nat.le_refl k, rfl⟩
    · obtain ⟨n, hn, l, hl, rfl⟩ := ih hb
      exact ⟨n, List.mem_cons_of_mem m hn, l, Nat.le_of_succ_le hl, rfl⟩

theorem pairwise_successive (hstem : '\n' ∉ stem) (hyears : ∀ m ∈ ms, m.date.HasFourDigitYear)
    (hms : ms.Pairwise (· ≤ ·)) :
    (successive stem k ms).Pairwise fun b c => Version.compare ⟨b.text⟩ ⟨c.text⟩ = .lt := by
  induction hms generalizing k with
  | nil => exact .nil
  | @cons m ms hm _ ih =>
    have hlater : ∀ n ∈ ms, n.date.HasFourDigitYear := fun n hn =>
      hyears n (List.mem_cons_of_mem m hn)
    refine .cons (fun b hb => ?_) (ih hlater)
    obtain ⟨n, hn, l, hl, rfl⟩ := eq_of_mem_successive hb
    exact compare_stamped hstem (hyears m List.mem_cons_self) (hlater n hn) (hm n hn) hl

end Build

namespace Version

theorem buildVersion_stamped (stem : Text) (m : Moment) (number : UInt32) :
    Transform.buildVersion (snapshotOf stem) m.buildStamp number =
      ⟨(Build.stamped stem m number.toNat).text⟩ :=
  Transform.buildVersion_snapshotOf (b := Build.stamped stem m number.toNat) rfl

end Version

namespace Deployment

variable {g : Registry.InMemory} {r : Repository} {a : Artifact} {base : Version} {stem : Text}
  {key : MetadataKey} {found : Option Envelope} {e e' : Envelope} {now : Moment}
  {ms : List (Moment × Moment)}

/-- Publishes builds one after the other, up to the first error. Of each it is given when the
repository is asked and which moment the build is stamped with. -/
def publishAll (a : Artifact) (r : Repository) :
    List (Moment × Moment) → Registry.InMemory →
      Except DeploymentFault (List Deployment) × Registry.InMemory
  | [], g => (.ok [], g)
  | (asked, now) :: ms, g =>
    match publish a r asked now g with
    | (.error err, g) => (.error err, g)
    | (.ok d, g) =>
      match publishAll a r ms g with
      | (.error err, g) => (.error err, g)
      | (.ok ds, g) => (.ok (d :: ds), g)

def current (g : Registry.InMemory) (r : Repository) (key : MetadataKey) : Envelope :=
  (g.store.get? r.id key).getD (.forKey key)

structure ListsSame (e e' : Envelope) : Prop where
  latest : e'.versioning.latest = e.versioning.latest
  release : e'.versioning.release = e.versioning.release
  versions : e'.versioning.versions = e.versioning.versions

theorem ListsSame.trans {e'' : Envelope} (h : ListsSame e e') (h' : ListsSame e' e'') :
    ListsSame e e'' :=
  ⟨h'.latest.trans h.latest, h'.release.trans h.release, h'.versions.trans h.versions⟩

theorem listsSame_ofNumber (base : Version) (key : MetadataKey) (found : Option Envelope)
    (now : Moment) (number : UInt32) :
    ListsSame (found.getD (.forKey key)) (ofNumber base key found now number).envelope :=
  ⟨rfl, rfl, rfl⟩

/-- What one publication of a snapshot does: the build has the next number and the repository
records it, without any change of the versions that are listed. -/
structure Succeeds (stem : Text) (r : Repository) (key : MetadataKey) (now : Moment)
    (g : Registry.InMemory) (d : Deployment) (g' : Registry.InMemory) : Prop where
  number : d.buildNumber.toNat = (lastNumber (g.store.get? r.id key)).toNat + 1
  version : d.version = ⟨(Build.stamped stem now d.buildNumber.toNat).text⟩
  recorded : lastNumber (g'.store.get? r.id key) = d.buildNumber
  lists : ListsSame (current g r key) (current g' r key)
  filed : g'.store.IsFiled
  failures : g'.store.failures = g.store.failures

theorem publish_succeeds (hfiled : g.store.IsFiled)
    (hbase : a.effective.map Version.base = some (.snapshotOf stem))
    (hkey : key = .ofVersion a.key (Version.snapshotOf stem).text)
    (hfailures : g.store.failures.get? (r.id, key) = none)
    (hroom : (lastNumber (g.store.get? r.id key)).toNat + 1 < Text.word32)
    (asked now : Moment) :
    ∃ d g', publish a r asked now g = (.ok d, g') ∧ Succeeds stem r key now g d g' := by
  have hf : g.store.answer key r = .ok (g.store.get? r.id key) := by
    rw [MemoryStore.answer, hfailures]
  obtain ⟨d, hd⟩ : ∃ d, plan (.snapshotOf stem) key (g.store.get? r.id key) now = .ok d :=
    exists_plan_iff.mpr hroom
  have hstored :
      ({ g.store with fetches := g.store.fetches + 1 }.put r.id d.envelope).get? r.id key =
        some d.envelope := MemoryStore.get?_put_self (key_plan hd (hfiled r.id key)) r.id
  subst hkey
  refine ⟨d, _, publish_eq hbase (Version.isOpenSnapshot_snapshotOf stem) hf hd, ?_⟩
  obtain ⟨number, hnumber, rfl⟩ := plan_eq_ok_iff.mp hd
  exact {
    number := hnumber
    version := Version.buildVersion_stamped stem now number
    recorded := by rw [hstored]; rfl
    lists := by
      rw [current, current, hstored]
      exact listsSame_ofNumber _ _ _ _ number
    filed := MemoryStore.IsFiled.put (hfiled.of_envelopes rfl) _ _
    failures := rfl }

theorem publishAll_eq (hfiled : g.store.IsFiled)
    (hbase : a.effective.map Version.base = some (.snapshotOf stem))
    (hkey : key = .ofVersion a.key (Version.snapshotOf stem).text)
    (hfailures : g.store.failures.get? (r.id, key) = none)
    (hroom : (lastNumber (g.store.get? r.id key)).toNat + ms.length < Text.word32) :
    ∃ ds g', publishAll a r ms g = (.ok ds, g') ∧
      ds.map (·.buildNumber.toNat) =
        List.range' ((lastNumber (g.store.get? r.id key)).toNat + 1) ms.length ∧
      ds.map (·.version) = (Build.successive stem ((lastNumber (g.store.get? r.id key)).toNat + 1)
        (ms.map Prod.snd)).map (fun b => ⟨b.text⟩) ∧
      ListsSame (current g r key) (current g' r key) := by
  -- What is at hand never matters: each round reads the store, where the round before it wrote.
  induction ms generalizing g with
  | nil => exact ⟨[], g, rfl, rfl, rfl, rfl, rfl, rfl⟩
  | cons m ms ih =>
    obtain ⟨asked, now⟩ := m
    rw [List.length_cons] at hroom
    obtain ⟨d, g₁, hd, hs⟩ :=
      publish_succeeds hfiled hbase hkey hfailures (by omega) asked now
    have hlast : (lastNumber (g₁.store.get? r.id key)).toNat =
        (lastNumber (g.store.get? r.id key)).toNat + 1 := by
      rw [hs.recorded, hs.number]
    have hroom₁ : (lastNumber (g₁.store.get? r.id key)).toNat + ms.length < Text.word32 := by
      omega
    obtain ⟨ds, g', hds, hnumbers, hversions, hlists⟩ :=
      ih hs.filed (hs.failures ▸ hfailures) hroom₁
    rw [hlast] at hnumbers hversions
    refine ⟨d :: ds, g', ?_, ?_, ?_, hs.lists.trans hlists⟩
    · simp only [publishAll, hd, hds]
    · rw [List.map_cons, hnumbers, hs.number, List.length_cons, List.range'_succ]
    · rw [List.map_cons, hversions, hs.version, hs.number]
      rfl

/-- Builds of a snapshot, published one after the other at moments that do not go back, count up
from the last one that the repository knows. They are builds of that snapshot, each of them newer
than those before it, and the versions that the envelope lists stay as they are. -/
theorem publishAll_counts_up (hfiled : g.store.IsFiled) (hstem : '\n' ∉ stem)
    (hbase : a.effective.map Version.base = some (.snapshotOf stem))
    (hkey : key = .ofVersion a.key (Version.snapshotOf stem).text)
    (hfailures : g.store.failures.get? (r.id, key) = none)
    (hmoments : (ms.map Prod.snd).Pairwise (· ≤ ·))
    (hyears : ∀ m ∈ ms, m.2.date.HasFourDigitYear)
    (hroom : (lastNumber (g.store.get? r.id key)).toNat + ms.length < Text.word32) :
    ∃ ds g', publishAll a r ms g = (.ok ds, g') ∧
      ds.map (·.buildNumber.toNat) =
        List.range' ((lastNumber (g.store.get? r.id key)).toNat + 1) ms.length ∧
      (∀ d ∈ ds, d.version.isTimestamped = true ∧ d.version.base = .snapshotOf stem) ∧
      (ds.map (·.version)).Pairwise (fun v w => v.compare w = .lt) ∧
      ListsSame (current g r key) (current g' r key) := by
  obtain ⟨ds, g', hds, hnumbers, hversions, hlists⟩ :=
    publishAll_eq hfiled hbase hkey hfailures hroom
  have hyears' : ∀ m ∈ ms.map Prod.snd, m.date.HasFourDigitYear := by
    intro m hm
    obtain ⟨round, hround, rfl⟩ := List.mem_map.mp hm
    exact hyears round hround
  refine ⟨ds, g', hds, hnumbers, fun d hd => ?_, ?_, hlists⟩
  · have hd' : d.version ∈ ds.map (·.version) := List.mem_map_of_mem hd
    rw [hversions] at hd'
    obtain ⟨b, hb, hbd⟩ := List.mem_map.mp hd'
    obtain ⟨m, hm, l, -, rfl⟩ := Build.eq_of_mem_successive hb
    have hproper := (Build.isPlain_stamped hstem (hyears' m hm) l).isProper
    rw [← hbd]
    exact ⟨Version.isTimestamped_build hproper, Version.base_build hproper⟩
  · rw [hversions]
    exact List.pairwise_map.mpr (Build.pairwise_successive hstem hyears' hmoments)

def rehearsed : Registry.InMemory :=
  ((Registry.ofStore Pipeline.nightly).performAll
    [.resolve ⟨"g", "a", some "2-SNAPSHOT"⟩ [.mirror .never] 0]).2

theorem publishAll_counts_up_of_rehearsed :
    ∃ ds g', publishAll (.root (.jar "g" "a") ⟨"2-SNAPSHOT"⟩) (.mirror .never)
        [(0, 0), (0, 0), (5, 86400000)] rehearsed = (.ok ds, g') ∧
      ds.map (·.buildNumber.toNat) = [4, 5, 6] ∧
      (ds.map (·.version)).Pairwise (fun v w => v.compare w = .lt) := by
  have hfiled : rehearsed.store.IsFiled :=
    Registry.isFiled_performAll (g := .ofStore Pipeline.nightly) isFiled_nightly _
  have hbase : (Artifact.root (.jar "g" "a") ⟨"2-SNAPSHOT"⟩).effective.map Version.base =
      some (.snapshotOf "2") := rfl
  have hyears : ∀ m ∈ ([(0, 0), (0, 0), (5, 86400000)] : List (Moment × Moment)),
      m.2.date.HasFourDigitYear := by decide
  obtain ⟨ds, g', hds, hnumbers, -, hsorted, -⟩ :=
    publishAll_counts_up (r := .mirror .never) hfiled (by decide) hbase rfl rfl (by decide) hyears
      (by decide)
  exact ⟨ds, g', hds, hnumbers, hsorted⟩

end Deployment

end Mediation
