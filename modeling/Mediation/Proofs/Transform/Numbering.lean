import Mediation.Proofs.Transform.Publication

/-! # Numbers of builds

A plan takes the number of the last build that its repository records and adds one to it, in 32
bits. What is planned has the next natural number, stands under it in its version and is found
again under it. Behind the greatest number of 32 bits nothing is planned: there the sum overflows.
-/

namespace Mediation

namespace Deployment

variable {σ : Type} [Store σ] {g : Registry σ} {a : Artifact} {r : Repository} {base : Version}
  {key : MetadataKey} {found : Option Envelope} {now : Moment} {d : Deployment}

theorem lastNumber_lt_buildNumber (hd : plan base key found now = .ok d) :
    lastNumber found < d.buildNumber := by
  obtain ⟨number, hnumber, rfl⟩ := plan_eq_ok_iff.mp hd
  rw [UInt32.lt_iff_toNat_lt]
  change (lastNumber found).toNat < number.toNat
  omega

theorem text_version_plan (hopen : base.isOpenSnapshot = true)
    (hd : plan base key found now = .ok d) : d.version.text =
      base.openStem ++ now.buildStamp ++ '-' :: Text.ofNat ((lastNumber found).toNat + 1) := by
  obtain ⟨number, hnumber, rfl⟩ := plan_eq_ok_iff.mp hd
  simp only [ofNumber, Transform.buildVersion, hopen, if_true, hnumber]

theorem construct_snapshot (c : Coordinate) (e : Envelope) :
    Transform.construct .snapshot c base e = .ok (lastVersion base (some e)) := rfl

/-- After an answer of the repository a plan for an open snapshot has the number behind the one that
is recorded, which is greater, stands in its version, and is the one that its metadata tell. There
is such a plan as long as the next number has 32 bits. Behind the greatest of them the sum
overflows, and nothing is planned. -/
theorem prepare_counts_on (hbase : a.effective.map Version.base = some base)
    (hopen : base.isOpenSnapshot = true)
    (hf : (Store.fetch (.ofVersion a.key base.text) r g.store).1 = .ok found)
    (asked now : Moment) :
    (∀ d, (prepare a r asked now g).1 = .ok d →
      d.buildNumber.toNat = (lastNumber found).toNat + 1 ∧ lastNumber found < d.buildNumber ∧
      d.version.text =
        base.openStem ++ now.buildStamp ++ '-' :: Text.ofNat ((lastNumber found).toNat + 1) ∧
      ∀ c, Transform.construct .snapshot c base d.envelope = .ok d.version) ∧
    ((∃ d, (prepare a r asked now g).1 = .ok d) ↔ (lastNumber found).toNat + 1 < 2 ^ 32) ∧
    ((prepare a r asked now g).1 = .error .overflow ↔ (lastNumber found).toNat + 1 = 2 ^ 32) := by
  rw [fst_prepare hbase hopen hf]
  refine ⟨fun d hd => ?_, exists_plan_iff, plan_eq_overflow_iff⟩
  have hnumber : d.buildNumber.toNat = (lastNumber found).toNat + 1 := by
    obtain ⟨number, hnumber, rfl⟩ := plan_eq_ok_iff.mp hd
    exact hnumber
  refine ⟨hnumber, lastNumber_lt_buildNumber hd, text_version_plan hopen hd, fun c => ?_⟩
  rw [construct_snapshot, lastVersion_plan hd]

def numbered (last : UInt32) : Registry MemoryStore :=
  .ofStore (MemoryStore.empty.put "mirror" ⟨"g", "a", some "2-SNAPSHOT", none, none, [], none,
    some ⟨some "20260101.120000", last, false⟩⟩)

/-- The last two numbers that a repository may record. -/
theorem prepare_counts_on_of_numbered :
    (∃ d, (prepare (.root (.jar "g" "a") ⟨"2-SNAPSHOT"⟩) (.mirror .never) 0 0
        (numbered 4294967294)).1 = .ok d ∧
      d.buildNumber.toNat = 4294967295 ∧ d.version = ⟨"2-19700101.000000-4294967295"⟩) ∧
    (prepare (.root (.jar "g" "a") ⟨"2-SNAPSHOT"⟩) (.mirror .never) 0 0
        (numbered 4294967295)).1 = .error .overflow := by
  have hbase : (Artifact.root (.jar "g" "a") ⟨"2-SNAPSHOT"⟩).effective.map Version.base =
      some ⟨"2-SNAPSHOT"⟩ := rfl
  constructor
  · obtain ⟨hplan, hroom, -⟩ :=
      prepare_counts_on (g := numbered 4294967294) (r := .mirror .never) hbase (by decide) rfl 0 0
    obtain ⟨d, hd⟩ := hroom.mpr (by decide)
    obtain ⟨hnumber, -, htext, -⟩ := hplan d hd
    exact ⟨d, hd, hnumber, congrArg Version.mk htext⟩
  · obtain ⟨-, -, hlast⟩ :=
      prepare_counts_on (g := numbered 4294967295) (r := .mirror .never) hbase (by decide) rfl 0 0
    exact hlast.mpr (by decide)

end Deployment

end Mediation
