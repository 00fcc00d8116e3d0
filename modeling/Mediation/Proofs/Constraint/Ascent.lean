import Mediation.Proofs.Constraint.Recording

/-! # Intervals in order

The intervals of a constraint ascend, whether it was read, stands for a version or is what
others leave to each other, so two of them share a version at most where one ends and the
other begins. A version lies in as many meetings of two lists as there are pairs of
intervals around it. So what was read without such a version has none later on.
-/

namespace Mediation

open Std

namespace Restriction

variable {r s : Restriction} {v : Version} {rs ss : List Restriction}

def EndsIn (r : Restriction) (v : Version) : Prop :=
  ∃ high, r.upper = some high ∧ v.compare high.version = .eq ∧ high.inclusive = true

def BeginsWith (r : Restriction) (v : Version) : Prop :=
  ∃ low, r.lower = some low ∧ v.compare low.version = .eq ∧ low.inclusive = true

/-- A version that lies in two intervals, one before the other, is where they touch. -/
theorem Before.touch (h : r.Before s) (hr : r.contains v = true) (hs : s.contains v = true) :
    r.EndsIn v ∧ s.BeginsWith v := by
  obtain ⟨high, low, hu, hl, hle⟩ := h
  have hbelow : high.admitsBelow v = true := by
    simp only [contains, hu, Bool.and_eq_true] at hr
    exact hr.2
  have habove : low.admitsAbove v = true := by
    simp only [contains, hl, Bool.and_eq_true] at hs
    exact hs.1
  rw [Bound.admitsBelow_iff] at hbelow
  rw [Bound.admitsAbove_iff] at habove
  rcases hbelow with hlt | ⟨heq, hi⟩
  · have hvl := TransCmp.lt_of_lt_of_isLE hlt hle
    simp [hvl] at habove
  · have hvl : (v.compare low.version).isLE = true := by rwa [TransCmp.congr_left heq]
    rcases habove with hgt | ⟨heq', hi'⟩
    · simp [hgt] at hvl
    · exact ⟨⟨high, hu, heq, hi⟩, ⟨low, hl, heq', hi'⟩⟩

theorem any_contains_intersect (r s : Restriction) (v : Version) :
    (r.intersect s).any (·.contains v) = (r.contains v && s.contains v) := by
  rw [Bool.eq_iff_iff, Option.any_eq_true, Bool.and_eq_true]
  constructor
  · rintro ⟨t, ht, hv⟩
    exact contains_of_intersect ht hv
  · rintro ⟨hr, hs⟩
    exact exists_intersect hr hs

theorem countP_filterMap_intersect (r : Restriction) (ss : List Restriction) (v : Version) :
    (ss.filterMap r.intersect).countP (·.contains v) =
      if r.contains v then ss.countP (·.contains v) else 0 := by
  have hany : ∀ s : Restriction, ((r.intersect s).map (·.contains v)).getD false =
      (r.contains v && s.contains v) := by
    intro s
    rw [← any_contains_intersect]
    cases r.intersect s <;> rfl
  simp only [List.countP_filterMap, hany]
  cases r.contains v <;> simp

end Restriction

namespace Constraint

variable {T : Text → Prop} {c d e : Constraint} {v : Version} {rs ss : List Restriction}

theorem countP_meet (rs ss : List Restriction) (v : Version) :
    (meet rs ss).countP (·.contains v) =
      rs.countP (·.contains v) * ss.countP (·.contains v) := by
  rw [meet, (List.mergeSort_perm _ _).countP_eq]
  induction rs with
  | nil => simp
  | cons r rs ih =>
    rw [List.flatMap_cons, List.countP_append, ih, Restriction.countP_filterMap_intersect,
      List.countP_cons]
    split <;> simp [Nat.add_mul, Nat.add_comm]

/-- How constraints arise: some texts are read, versions are recommended or demanded, and
constraints are met. -/
inductive Arises (T : Text → Prop) : Constraint → Prop
  | read {t : Text} {c : Constraint} (ht : T t) (h : read t = .ok c) : Arises T c
  | soft (v : Version) : Arises T (.soft v)
  | exact (v : Version) : Arises T (.exact v)
  | intersect {c d e : Constraint} (hc : Arises T c) (hd : Arises T d)
      (h : c.intersect d = .ok e) : Arises T e

namespace Arises

theorem pairwise (h : Arises T c) : c.restrictions.Pairwise Restriction.Before := by
  induction h with
  | read _ h => exact (isLegible_of_read h).pairwise
  | soft v => exact List.pairwise_singleton _ _
  | exact v => exact List.pairwise_singleton _ _
  | intersect _ _ h ihc ihd =>
    rw [intersect_eq_ok h, meet_eq ihc ihd]
    exact Restriction.pairwise_meetings ihc ihd

theorem isReversed (h : Arises T c) : ∀ r ∈ c.restrictions, r.isReversed = false := by
  induction h with
  | read _ h => exact fun r hr => ((isLegible_of_read h).isPrintable r hr).ordered
  | soft v => simp [Constraint.soft, Restriction.everything, Restriction.isReversed]
  | exact v =>
    simp [Constraint.exact, Restriction.exactly, Restriction.isReversed, Version.precedes,
      ReflCmp.compare_self]
  | intersect _ _ h _ _ =>
    intro t ht
    rw [intersect_eq_ok h] at ht
    obtain ⟨r, -, s, -, ht⟩ := mem_meet.mp ht
    exact Restriction.isReversed_of_hasRoom (Restriction.eq_overlap ht).2

theorem countP_le_one (h : Arises T c)
    (hT : ∀ t d, T t → Constraint.read t = .ok d → d.restrictions.countP (·.contains v) ≤ 1) :
    c.restrictions.countP (·.contains v) ≤ 1 := by
  induction h with
  | read ht h => exact hT _ _ ht h
  | soft v => exact List.countP_le_length
  | exact v => exact List.countP_le_length
  | intersect _ _ h ihc ihd =>
    rw [intersect_eq_ok h, countP_meet]
    exact Nat.mul_le_mul ihc ihd

end Arises

/-- The intervals of a constraint ascend: none is reversed, each has ended where a later one
begins, and it comes first in the order by lower bounds if it has room. Two of them share at
most a version in which the one ends and with which the other begins, and such a version lay
in two intervals of a text that was read. -/
theorem restrictions_ascend (h : Arises T c) :
    (∀ r ∈ c.restrictions, r.isReversed = false) ∧
    (c.restrictions.Pairwise fun r s =>
      r.Before s ∧ (r.hasRoom = true → r.compareLower s ≠ .gt) ∧
        ∀ v, r.contains v = true → s.contains v = true → r.EndsIn v ∧ s.BeginsWith v) ∧
    ∀ v, (∀ t d, T t → read t = .ok d → d.restrictions.countP (·.contains v) ≤ 1) →
      c.restrictions.countP (·.contains v) ≤ 1 := by
  refine ⟨h.isReversed, h.pairwise.imp ?_, fun v hT => h.countP_le_one hT⟩
  intro r s hrs
  refine ⟨hrs, fun hroom => ?_, fun v => hrs.touch⟩
  simpa using Restriction.compareLower_ne_gt hrs hroom

def halves : Constraint :=
  ⟨none, [⟨some ⟨⟨"1"⟩, true⟩, some ⟨⟨"2"⟩, false⟩⟩, ⟨some ⟨⟨"2"⟩, true⟩, some ⟨⟨"3"⟩, true⟩⟩]⟩

def across : Constraint := ⟨none, [⟨some ⟨⟨"1.5"⟩, false⟩, some ⟨⟨"2.5"⟩, true⟩⟩]⟩

def crossed : Constraint :=
  ⟨none, [⟨some ⟨⟨"1.5"⟩, false⟩, some ⟨⟨"2"⟩, false⟩⟩,
    ⟨some ⟨⟨"2"⟩, true⟩, some ⟨⟨"2.5"⟩, true⟩⟩]⟩

theorem restrictions_ascend_of_crossed :
    read "[1,2),[2,3]" = .ok halves ∧ read "(1.5,2.5]" = .ok across ∧
      halves.intersect across = .ok crossed ∧
      crossed.restrictions.Pairwise Restriction.Before ∧
      crossed.restrictions.countP (·.contains ⟨"2.0"⟩) ≤ 1 := by
  have hh : read "[1,2),[2,3]" = .ok halves := by decide +kernel
  have ha : read "(1.5,2.5]" = .ok across := by decide +kernel
  have hm : meet halves.restrictions across.restrictions = crossed.restrictions := by
    rw [meet_eq (isLegible_of_read hh).pairwise (isLegible_of_read ha).pairwise]
    decide +kernel
  have hi : halves.intersect across = .ok crossed := by
    rw [intersect, hm]
    rfl
  have hc : Arises (· ∈ ["[1,2),[2,3]".toList, "(1.5,2.5]".toList]) crossed :=
    .intersect (.read (by simp) hh) (.read (by simp) ha) hi
  obtain ⟨-, hpair, hcount⟩ := restrictions_ascend hc
  refine ⟨hh, ha, hi, hpair.imp And.left, hcount _ fun t d ht hd => ?_⟩
  rcases List.mem_pair.mp ht with rfl | rfl
  · cases hh.symm.trans hd
    decide +kernel
  · cases ha.symm.trans hd
    decide +kernel

/-- Reading takes intervals that touch, so their common end lies in both. -/
example : ((read "[1,2],[2,3]".toList).toOption.map fun c =>
    c.restrictions.countP (·.contains ⟨"2"⟩)) = some 2 := by decide +kernel

end Constraint

end Mediation
