import Mediation.Proofs.Transform.Pipeline
import Mediation.Proofs.Version.Build

/-! # Builds as encodings of records

What a repository records of the last build of a snapshot, its timestamp and its number, is
written behind the stem of the snapshot. The version that this gives tells its snapshot and the
record again, and a version that tells a record is the one that its snapshot and the record give.
-/

namespace Mediation

namespace Version

variable {v : Version} {b : Build} {timestamp : Text} {n : ℕ}

theorem snapshotBuild_eq_some_iff : v.snapshotBuild = some (timestamp, n) ↔
    ∃ b, v.build? = some b ∧ b.timestamp = timestamp ∧
      Text.readBelow Text.word32 b.number = some n := by
  cases hb : v.build? with
  | none => simp [snapshotBuild, hb]
  | some b =>
    cases hn : Text.readBelow Text.word32 b.number <;> simp [snapshotBuild, hb, hn]

theorem readBelow_ofNat {m : UInt32} : Text.readBelow Text.word32 (Text.ofNat m.toNat) =
    some m.toNat := by
  have hd := Text.all_isDigit_ofNat m.toNat
  rw [Text.readBelow_eq_some_iff, Text.dropPlus_of_digits (Text.all_isDecimalDigit hd)]
  refine ⟨?_, Text.value_ofNat _, m.toNat_lt⟩
  simp [Text.isNumeric, hd, Text.ofNat_ne_nil]

/-- The number of a build, if it has no leading zero, is written as numbers are. -/
theorem eq_ofNat_of_readBelow (hp : b.isProper = true) (hz : b.number.head? ≠ some '0')
    (h : Text.readBelow Text.word32 b.number = some n) :
    0 < n ∧ n < Text.word32 ∧ b.number = Text.ofNat n := by
  obtain ⟨hne, hall⟩ := Build.number_of_isProper hp
  rw [Text.readBelow_eq_some_iff, Text.dropPlus_of_digits hall, Text.isNumeric,
    Bool.and_eq_true] at h
  obtain ⟨⟨-, hd⟩, rfl, hlt⟩ := h
  obtain ⟨hpos, heq⟩ := Text.ofNat_value hne hd hz
  exact ⟨hpos, hlt, heq.symm⟩

end Version

namespace Transform

open Version (snapshotOf)

variable {c : Coordinate} {v : Version} {e : Envelope} {b : Build} {timestamp : Text} {n : UInt32}

theorem buildVersion_snapshotOf (h : b.number = Text.ofNat n.toNat) :
    buildVersion (snapshotOf b.base) b.timestamp n = ⟨b.text⟩ := by
  rw [buildVersion, if_pos (Version.isOpenSnapshot_snapshotOf b.base),
    Version.openStem_snapshotOf, Build.timestamp, Build.text, h]
  simp only [List.append_assoc, List.cons_append, List.nil_append]

theorem construct_of_record (hn : n ≠ 0)
    (h : e.versioning.snapshot = some ⟨some timestamp, n, false⟩) :
    construct .snapshot c v e = .ok (buildVersion v timestamp n) := by
  simp [construct, h, lastBuild, hn]

theorem not_isOpenSnapshot_build (h : b.IsPlain) : Version.isOpenSnapshot ⟨b.text⟩ = false := by
  have hlast := Build.getLast?_text h.number_ne
  rw [List.getLast?_eq_some_getLast h.number_ne] at hlast
  exact not_isOpenSnapshot_of_digit hlast
    (List.all_eq_true.mp h.digits_number _ (List.getLast_mem h.number_ne))

/-- The snapshot transform encodes a record, and the build that it gives tells the snapshot and
the record. The other way round, the transform gives a build back from what it tells. -/
theorem snapshot_encodes_build (c : Coordinate) :
    (∀ (b : Build) (n : UInt32) (e : Envelope), b.IsPlain → b.number = Text.ofNat n.toNat →
      n ≠ 0 → e.versioning.snapshot = some ⟨some b.timestamp, n, false⟩ →
      construct .snapshot c (snapshotOf b.base) e = .ok ⟨b.text⟩ ∧
        Version.isTimestamped ⟨b.text⟩ = true ∧ Version.isOpenSnapshot ⟨b.text⟩ = false ∧
        Version.base ⟨b.text⟩ = snapshotOf b.base ∧
        Version.snapshotBuild ⟨b.text⟩ = some (b.timestamp, n.toNat)) ∧
    ∀ (v : Version) (timestamp : Text) (n : ℕ) (e : Envelope),
      v.snapshotBuild = some (timestamp, n) → (∀ b ∈ v.build?, b.number.head? ≠ some '0') →
      e.versioning.snapshot = some ⟨some timestamp, .ofNat n, false⟩ →
      construct .snapshot c v.base e = .ok v := by
  constructor
  · intro b n e hb hn hpos he
    have hp := hb.isProper
    refine ⟨?_, Version.isTimestamped_build hp, not_isOpenSnapshot_build hb,
      Version.base_build hp, ?_⟩
    · rw [construct_of_record hpos he, buildVersion_snapshotOf hn]
    · exact Version.snapshotBuild_eq_some_iff.mpr
        ⟨b, Version.build?_text hp, rfl, hn ▸ Version.readBelow_ofNat⟩
  · intro v timestamp n e hv hz he
    obtain ⟨b, hb, rfl, hread⟩ := Version.snapshotBuild_eq_some_iff.mp hv
    obtain ⟨hp, hv⟩ := Build.read?_eq_some_iff.mp hb
    obtain ⟨hpos, hlt, hn⟩ := Version.eq_ofNat_of_readBelow hp (hz b hb) hread
    have hnat : (UInt32.ofNat n).toNat = n := UInt32.toNat_ofNat_of_lt' hlt
    have hne : UInt32.ofNat n ≠ 0 := by
      intro h
      rw [h] at hnat
      exact absurd hnat (Nat.ne_of_lt hpos)
    obtain rfl : v = ⟨b.text⟩ := congrArg Version.mk hv.symm
    rw [construct_of_record hne he, Version.base_build hp, buildVersion_snapshotOf (hnat.symm ▸ hn)]

/-- A build of a stem that has the form of a build itself, with the last number there is. -/
def stacked : Build := ⟨"1-20090101.120000-3", "20240301", "093000", "4294967295"⟩

def stackedRecord : Envelope :=
  ⟨"g", "a", none,
    { Versioning.empty with snapshot := some ⟨some stacked.timestamp, 4294967295, false⟩ }⟩

theorem snapshot_encodes_build_of_stacked :
    construct .snapshot (.jar "g" "a") (snapshotOf stacked.base) stackedRecord =
        .ok ⟨stacked.text⟩ ∧
      Version.snapshotBuild ⟨stacked.text⟩ = some (stacked.timestamp, 4294967295) ∧
      construct .snapshot (.jar "g" "a") (Version.base ⟨stacked.text⟩) stackedRecord =
        .ok ⟨stacked.text⟩ := by
  have hplain : stacked.IsPlain :=
    ⟨by decide, rfl, by decide, rfl, by decide, by decide, by decide⟩
  obtain ⟨hencode, hdecode⟩ := snapshot_encodes_build (.jar "g" "a")
  obtain ⟨hversion, -, -, -, hbuild⟩ :=
    hencode stacked 4294967295 stackedRecord hplain (by decide +kernel) (by decide) rfl
  have hnumber : ∀ b ∈ Version.build? ⟨stacked.text⟩, b.number.head? ≠ some '0' := by
    rw [Version.build?_text hplain.isProper]
    decide
  exact ⟨hversion, hbuild, hdecode _ _ _ _ hbuild hnumber rfl⟩

end Transform

end Mediation
