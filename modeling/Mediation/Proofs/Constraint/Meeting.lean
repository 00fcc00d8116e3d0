import Mediation.Proofs.Constraint.Latitude

/-! # What two constraints admit together

Two constraints meet in one that admits exactly what both admit: a version that lies in two
intervals shows that these have room, and lies in the interval they meet in. What is admitted
depends on the rank of a version and not on its spelling.
-/

namespace Mediation

open Std

namespace Bound

variable {a b : Bound} {v w : Version}

theorem admitsAbove_of_eq (b : Bound) (h : v.compare w = .eq) :
    b.admitsAbove v = b.admitsAbove w := by
  unfold admitsAbove
  rw [TransCmp.congr_left h]

theorem admitsBelow_of_eq (b : Bound) (h : v.compare w = .eq) :
    b.admitsBelow v = b.admitsBelow w := by
  unfold admitsBelow
  rw [TransCmp.congr_left h]

theorem admitsAbove_iff : b.admitsAbove v = true ↔
    v.compare b.version = .gt ∨ v.compare b.version = .eq ∧ b.inclusive = true := by
  unfold admitsAbove
  cases v.compare b.version <;> simp

theorem admitsBelow_iff : b.admitsBelow v = true ↔
    v.compare b.version = .lt ∨ v.compare b.version = .eq ∧ b.inclusive = true := by
  unfold admitsBelow
  cases v.compare b.version <;> simp

theorem admitsBetween_of_admits (ha : a.admitsAbove v = true) (hb : b.admitsBelow v = true) :
    a.admitsBetween b = true := by
  unfold admitsBetween
  rcases admitsAbove_iff.mp ha with hva | ⟨hva, hi⟩
  · have hav : a.version.compare v = .lt := OrientedCmp.lt_of_gt hva
    rcases admitsBelow_iff.mp hb with hvb | ⟨hvb, -⟩
    · rw [TransCmp.lt_trans hav hvb]
    · rw [TransCmp.lt_of_lt_of_eq hav hvb]
  · rw [← TransCmp.congr_left hva]
    rcases admitsBelow_iff.mp hb with hvb | ⟨hvb, hj⟩ <;> simp_all

end Bound

namespace Restriction

variable {r s : Restriction} {v w : Version}

theorem contains_of_eq (r : Restriction) (h : v.compare w = .eq) : r.contains v = r.contains w := by
  unfold contains
  congr 1
  · cases r.lower with
    | none => rfl
    | some b => exact b.admitsAbove_of_eq h
  · cases r.upper with
    | none => rfl
    | some b => exact b.admitsBelow_of_eq h

theorem hasRoom_of_contains (h : r.contains v = true) : r.hasRoom = true := by
  obtain ⟨hl, hu⟩ := Bool.and_eq_true_iff.mp h
  unfold hasRoom
  split
  · rename_i low high hlow hhigh
    rw [hlow] at hl
    rw [hhigh] at hu
    exact Bound.admitsBetween_of_admits hl hu
  · rfl

theorem exists_intersect (hr : r.contains v = true) (hs : s.contains v = true) :
    ∃ t, r.intersect s = some t ∧ t.contains v = true := by
  have hmet := contains_overlap.mpr ⟨hr, hs⟩
  exact ⟨_, if_pos (hasRoom_of_contains hmet), hmet⟩

end Restriction

namespace Constraint

variable {c d e : Constraint} {v w : Version}

theorem contains_of_eq (c : Constraint) (h : v.compare w = .eq) : c.contains v = c.contains w := by
  unfold contains
  congr 1
  funext r
  exact r.contains_of_eq h

@[simp] theorem contains_soft (v w : Version) : (soft v).contains w = true := by
  simp [soft, contains, Restriction.everything, Restriction.contains]

theorem exists_mem_meet (hc : c.contains v = true) (hd : d.contains v = true) :
    ∃ t ∈ meet c.restrictions d.restrictions, t.contains v = true := by
  obtain ⟨r, hr, hrv⟩ := List.any_eq_true.mp hc
  obtain ⟨s, hs, hsv⟩ := List.any_eq_true.mp hd
  obtain ⟨t, ht, htv⟩ := Restriction.exists_intersect hrv hsv
  exact ⟨t, mem_meet.mpr ⟨r, hr, s, hs, ht⟩, htv⟩

theorem contains_intersect (h : c.intersect d = .ok e) (v : Version) :
    e.contains v = true ↔ c.contains v = true ∧ d.contains v = true := by
  refine ⟨contains_of_intersect h, fun ⟨hc, hd⟩ => ?_⟩
  obtain rfl := intersect_eq_ok h
  exact List.any_eq_true.mpr (exists_mem_meet hc hd)

theorem intersect_eq_error {f : ConstraintError} (h : c.intersect d = .error f) :
    f = .noOverlap c.text d.text ∧ meet c.restrictions d.restrictions = [] := by
  unfold intersect at h
  split at h
  · rename_i hmeet
    exact ⟨(Except.error.inj h).symm, hmeet⟩
  · cases h

theorem not_contains_of_intersect_eq_error {f : ConstraintError} (h : c.intersect d = .error f)
    (hc : c.contains v = true) : d.contains v = false := by
  rw [Bool.eq_false_iff]
  intro hd
  obtain ⟨t, ht, -⟩ := exists_mem_meet hc hd
  rw [(intersect_eq_error h).2] at ht
  cases ht

/-- Two constraints meet in what both admit, with the first recommendation that this leaves. If they
do not meet, then no version is admitted by both. -/
theorem intersect_is_exact (c d : Constraint) :
    match c.intersect d with
    | .ok e =>
      (∀ v, e.contains v = true ↔ c.contains v = true ∧ d.contains v = true) ∧
      e.recommended = (c.recommended.filter e.contains).or (d.recommended.filter e.contains)
    | .error f =>
      f = .noOverlap c.text d.text ∧ ∀ v, c.contains v = true → d.contains v = false := by
  cases h : c.intersect d with
  | ok e =>
    refine ⟨contains_intersect h, ?_⟩
    obtain rfl := intersect_eq_ok h
    rfl
  | error f => exact ⟨(intersect_eq_error h).1, fun v => not_contains_of_intersect_eq_error h⟩

end Constraint

end Mediation
