import Mediation.Proofs.Constraint.Narrowing
import Mediation.Proofs.Constraint.Rereading

/-! # Recording narrowed constraints

The intervals of two lists that ascend meet in ascending order and can be printed. So the
written form of a narrowed constraint reads back, and unless the constraint recommends a
version it admits the same versions as before. A recommendation is all that is written
down of a constraint that has one, and read back it admits every version.
-/

namespace Mediation

open Std

namespace Bound

variable {a : Bound} {x y : Option Bound}

theorem isLE_version_lower (a b : Bound) :
    ((a.lower b).version.compare a.version).isLE = true ∧
      ((a.lower b).version.compare b.version).isLE = true := by
  unfold lower
  cases h : a.version.compare b.version with
  | lt => simp [h, ReflCmp.compare_self]
  | eq => simp [h, ReflCmp.compare_self]
  | gt => simp [OrientedCmp.lt_of_gt h, ReflCmp.compare_self]

theorem isLE_version_higher (a b : Bound) :
    (a.version.compare (a.higher b).version).isLE = true ∧
      (b.version.compare (a.higher b).version).isLE = true := by
  unfold higher
  cases h : a.version.compare b.version with
  | lt => simp [h, ReflCmp.compare_self]
  | eq => simp [OrientedCmp.eq_symm h, ReflCmp.compare_self]
  | gt => simp [OrientedCmp.lt_of_gt h, ReflCmp.compare_self]

/-- A tightened bound is there if one of the two is, and is as tight as that one. -/
theorem exists_tighten {combine : Bound → Bound → Bound} {R : Bound → Bound → Prop}
    (hr : ∀ a, R a a) (hc : ∀ a b, R (combine a b) a ∧ R (combine a b) b)
    (h : x = some a ∨ y = some a) : ∃ b, tighten combine x y = some b ∧ R b a := by
  cases x with
  | none => exact ⟨a, by simpa [tighten] using h, hr a⟩
  | some c =>
    cases y with
    | none => exact ⟨a, by simpa [tighten] using h, hr a⟩
    | some d =>
      refine ⟨combine c d, rfl, ?_⟩
      rcases h with ⟨⟨⟩⟩ | ⟨⟨⟩⟩
      · exact (hc a d).1
      · exact (hc c a).2

theorem exists_tighten_lower (h : x = some a ∨ y = some a) :
    ∃ b, tighten .lower x y = some b ∧ (b.version.compare a.version).isLE = true :=
  exists_tighten (R := fun b a => (b.version.compare a.version).isLE = true)
    (by simp [ReflCmp.compare_self]) isLE_version_lower h

theorem exists_tighten_higher (h : x = some a ∨ y = some a) :
    ∃ b, tighten .higher x y = some b ∧ (a.version.compare b.version).isLE = true :=
  exists_tighten (R := fun b a => (a.version.compare b.version).isLE = true)
    (by simp [ReflCmp.compare_self]) isLE_version_higher h

theorem version_tighten {combine : Bound → Bound → Bound} {P : Version → Prop}
    (hc : ∀ a b, (combine a b).version = a.version ∨ (combine a b).version = b.version)
    (hx : ∀ a ∈ x, P a.version) (hy : ∀ a ∈ y, P a.version) :
    ∀ a ∈ tighten combine x y, P a.version := by
  cases x with
  | none => simpa [tighten] using hy
  | some c =>
    cases y with
    | none => simpa [tighten] using hx
    | some d =>
      rintro _ ⟨⟩
      rcases hc c d with h | h
      · exact h ▸ hx c rfl
      · exact h ▸ hy d rfl

theorem version_lower (a b : Bound) :
    (a.lower b).version = a.version ∨ (a.lower b).version = b.version := by
  unfold lower
  split <;> simp

theorem version_higher (a b : Bound) :
    (a.higher b).version = a.version ∨ (a.higher b).version = b.version := by
  unfold higher
  split <;> simp

end Bound

theorem Version.precedes_eq_false_iff {v w : Version} :
    v.precedes w = false ↔ (w.compare v).isLE = true := by
  have hs : v.compare w = (w.compare v).swap := OrientedCmp.eq_swap
  rw [← Bool.not_eq_true, Version.precedes_iff, hs]
  cases w.compare v <;> simp

namespace Restriction

variable {r s t u : Restriction} {rs ss : List Restriction}

def Before (r s : Restriction) : Prop :=
  ∃ high low, r.upper = some high ∧ s.lower = some low ∧
    (high.version.compare low.version).isLE = true

theorem before_iff : r.Before s ↔ s.overlapsAfter r.upper = false := by
  simp only [overlapsAfter_eq_false_iff, Before, Version.precedes_eq_false_iff]

theorem Before.trans (h : r.Before s) (hs : s.isReversed = false) (h' : s.Before t) :
    r.Before t := by
  obtain ⟨high, low, hr, hl, hle⟩ := h
  obtain ⟨high', low', hu, ht, hle'⟩ := h'
  have hmid : (low.version.compare high'.version).isLE = true := by
    rw [← Version.precedes_eq_false_iff]
    simpa [isReversed, hl, hu] using hs
  exact ⟨high, low', hr, ht, TransCmp.isLE_trans (TransCmp.isLE_trans hle hmid) hle'⟩

/-- Intervals that are met come in the order of those they are met with. -/
theorem Before.overlap_left (h : r.Before s) (t u : Restriction) :
    (r.overlap t).Before (s.overlap u) := by
  obtain ⟨high, low, hr, hs, hle⟩ := h
  obtain ⟨b, hb, hbh⟩ := Bound.exists_tighten_lower (y := t.upper) (.inl hr)
  obtain ⟨c, hc, hlc⟩ := Bound.exists_tighten_higher (y := u.lower) (.inl hs)
  exact ⟨b, c, hb, hc, TransCmp.isLE_trans (TransCmp.isLE_trans hbh hle) hlc⟩

theorem Before.overlap_right (h : r.Before s) (t u : Restriction) :
    (t.overlap r).Before (u.overlap s) := by
  obtain ⟨high, low, hr, hs, hle⟩ := h
  obtain ⟨b, hb, hbh⟩ := Bound.exists_tighten_lower (x := t.upper) (.inr hr)
  obtain ⟨c, hc, hlc⟩ := Bound.exists_tighten_higher (x := u.lower) (.inr hs)
  exact ⟨b, c, hb, hc, TransCmp.isLE_trans (TransCmp.isLE_trans hbh hle) hlc⟩

theorem eq_overlap (h : r.intersect s = some t) : t = r.overlap s ∧ t.hasRoom = true := by
  rw [intersect_eq, Option.ite_none_right_eq_some] at h
  obtain ⟨hroom, ⟨⟩⟩ := h
  exact ⟨rfl, hroom⟩

theorem pairwise_meetings (hr : rs.Pairwise Before) (hs : ss.Pairwise Before) :
    (rs.flatMap fun r => ss.filterMap r.intersect).Pairwise Before := by
  refine List.pairwise_flatMap.mpr ⟨fun r _ => ?_, hr.imp fun hrs t ht u hu => ?_⟩
  · refine List.pairwise_filterMap.mpr (hs.imp fun h t ht u hu => ?_)
    rw [(eq_overlap ht).1, (eq_overlap hu).1]
    exact h.overlap_right r r
  · obtain ⟨a, -, ha⟩ := List.mem_filterMap.mp ht
    obtain ⟨b, -, hb⟩ := List.mem_filterMap.mp hu
    rw [(eq_overlap ha).1, (eq_overlap hb).1]
    exact hrs.overlap_left a b

theorem compareLower_ne_gt (h : r.Before s) (hr : r.hasRoom = true) :
    (r.compareLower s != .gt) = true := by
  obtain ⟨high, low, hu, hl, hle⟩ := h
  cases hb : r.lower with
  | none => simp [compareLower, hb, hl]
  | some b =>
    simp only [hasRoom, hb, hu, Bound.admitsBetween] at hr
    simp only [compareLower, hb, hl]
    cases hc : b.version.compare high.version with
    | lt => simp [TransCmp.lt_of_lt_of_isLE hc hle]
    | eq =>
      -- at one version the interval is a point, so its lower bound is inclusive
      obtain ⟨hi, -⟩ : b.inclusive = true ∧ high.inclusive = true := by simpa [hc] using hr
      rw [TransCmp.congr_left hc, hi]
      revert hle
      cases high.version.compare low.version <;> cases low.inclusive <;> simp
    | gt => simp [hc] at hr

theorem isReversed_of_hasRoom (h : r.hasRoom = true) : r.isReversed = false := by
  cases hlow : r.lower with
  | none => simp [isReversed, hlow]
  | some low =>
    cases hhigh : r.upper with
    | none => simp [isReversed, hhigh]
    | some high =>
      simp only [hasRoom, hlow, hhigh, Bound.admitsBetween] at h
      simp only [isReversed, hlow, hhigh, Version.precedes_eq_false_iff]
      revert h
      cases low.version.compare high.version <;> simp

theorem isPrintable_of_hasRoom (hl : ∀ b ∈ r.lower, b.version.IsSpellable)
    (hu : ∀ b ∈ r.upper, b.version.IsSpellable) (h : r.hasRoom = true) : r.IsPrintable where
  lower := hl
  upper := hu
  ordered := isReversed_of_hasRoom h
  point low hlow high hhigh hv := by
    rw [Option.mem_def] at hlow hhigh
    simpa [hasRoom, hlow, hhigh, Bound.admitsBetween, hv, ReflCmp.compare_self] using h

theorem isPrintable_everything : everything.IsPrintable :=
  isPrintable_of_hasRoom nofun nofun rfl

theorem IsPrintable.intersect (hr : r.IsPrintable) (hs : s.IsPrintable)
    (h : r.intersect s = some t) : t.IsPrintable := by
  obtain ⟨rfl, hroom⟩ := eq_overlap h
  refine isPrintable_of_hasRoom ?_ ?_ hroom
  · exact Bound.version_tighten Bound.version_higher hr.lower hs.lower
  · exact Bound.version_tighten Bound.version_lower hr.upper hs.upper

theorem contains_reread (r : Restriction) (v : Version) : r.reread.contains v = r.contains v := by
  cases h : r.isPoint with
  | false => rw [reread_of_not_isPoint h]
  | true =>
    obtain ⟨w, x, hwx, hl, hu⟩ := isPoint_iff.mp h
    have hb : (⟨w, true⟩ : Bound).admitsBelow v = (⟨x, true⟩ : Bound).admitsBelow v := by
      simp only [Bound.admitsBelow, TransCmp.congr_right (Version.compare_eq_of_same hwx)]
    simp [reread_of_isPoint h, contains, hl, hu, hb]

end Restriction

namespace Constraint

variable {a b c : Constraint} {s t : Text} {rs ss : List Restriction}

theorem pairwise_of_isAscending (h : ∀ r ∈ rs, r.IsPrintable) (ha : IsAscending rs) :
    rs.Pairwise Restriction.Before := by
  induction rs with
  | nil => exact .nil
  | cons r rs ih =>
    obtain ⟨-, hrs⟩ := List.forall_mem_cons.mp h
    obtain ⟨hhead, htail⟩ := List.isChain_cons.mp ha
    have hpair := ih hrs htail
    refine hpair.cons fun t ht => ?_
    cases rs with
    | nil => cases ht
    | cons s rs =>
      have hs : r.Before s := Restriction.before_iff.mpr (hhead s rfl)
      rcases List.mem_cons.mp ht with rfl | ht
      · exact hs
      · exact hs.trans (hrs s List.mem_cons_self).ordered ((List.pairwise_cons.mp hpair).1 t ht)

theorem meet_eq (hr : rs.Pairwise Restriction.Before) (hs : ss.Pairwise Restriction.Before) :
    meet rs ss = rs.flatMap fun r => ss.filterMap r.intersect := by
  refine List.mergeSort_of_pairwise ?_
  refine (Restriction.pairwise_meetings hr hs).imp_of_mem fun ht _ h => ?_
  obtain ⟨r, -, ht⟩ := List.mem_flatMap.mp ht
  obtain ⟨s, -, ht⟩ := List.mem_filterMap.mp ht
  exact Restriction.compareLower_ne_gt h (Restriction.eq_overlap ht).2

namespace IsLegible

theorem isPrintable (h : c.IsLegible) : ∀ r ∈ c.restrictions, r.IsPrintable := by
  cases h with
  | soft => exact List.forall_mem_singleton.mpr Restriction.isPrintable_everything
  | range _ hp _ => exact hp

theorem isAscending (h : c.IsLegible) : IsAscending c.restrictions := by
  cases h with
  | soft => exact .singleton _
  | range _ _ ha => exact ha

theorem pairwise (h : c.IsLegible) : c.restrictions.Pairwise Restriction.Before :=
  pairwise_of_isAscending h.isPrintable h.isAscending

theorem read_recommended {v : Version} (h : c.IsLegible) (hv : c.recommended = some v) :
    read v.text = .ok (.soft v) := by
  cases h with
  | soft h =>
    cases hv
    exact h
  | range => cases hv

theorem meet (ha : a.IsLegible) (hb : b.IsLegible) :
    (∀ r ∈ Constraint.meet a.restrictions b.restrictions, r.IsPrintable) ∧
      IsAscending (Constraint.meet a.restrictions b.restrictions) := by
  constructor
  · intro r hr
    obtain ⟨p, hp, q, hq, hr⟩ := mem_meet.mp hr
    exact (ha.isPrintable p hp).intersect (hb.isPrintable q hq) hr
  · rw [meet_eq ha.pairwise hb.pairwise]
    refine (Restriction.pairwise_meetings ha.pairwise hb.pairwise).isChain.imp fun r s hrs => ?_
    exact Restriction.before_iff.mp hrs

end IsLegible

theorem contains_map_reread (rs : List Restriction) (v : Version) :
    contains ⟨none, rs.map Restriction.reread⟩ v = contains ⟨none, rs⟩ v := by
  simp [contains, Function.comp_def, Restriction.contains_reread]

/-- The written form of a narrowed constraint is read. If the constraint recommends a version,
this is all that is read, and every version is admitted; otherwise the same versions are admitted
as before. -/
theorem records_intersection (ha : read s = .ok a) (hb : read t = .ok b)
    (h : a.intersect b = .ok c) :
    ∃ d, read c.text = .ok d ∧ d.recommended = c.recommended ∧
      ∀ v, d.contains v = (c.recommended.isSome || c.contains v) := by
  have ha := isLegible_of_read ha
  have hb := isLegible_of_read hb
  cases hc : c.recommended with
  | some v =>
    have hv : read v.text = .ok (soft v) := by
      rcases (of_recommended_intersect h hc).1 with hv | hv
      · exact ha.read_recommended hv
      · exact hb.read_recommended hv
    exact ⟨soft v, by simpa [text, hc] using hv, rfl, by simp⟩
  | none =>
    obtain ⟨m, hm⟩ := exists_intersect_iff_meet.mp ⟨c, h⟩
    obtain ⟨hp, hasc⟩ := ha.meet hb
    have hc' : c = ⟨none, meet a.restrictions b.restrictions⟩ := by
      obtain rfl := intersect_eq_ok h
      exact congrArg (Constraint.mk · _) hc
    refine ⟨_, hc' ▸ read_text (List.ne_nil_of_mem hm) hp hasc.reread, rfl, fun v => ?_⟩
    simp [hc', contains_map_reread]

/-- A recommendation that was narrowed by a range is read back as if it had not been. -/
example :
    (do
      let c ← (← read "1.2".toList).intersect (← read "[1.0,2.0)".toList)
      let d ← read c.text
      return (c.contains ⟨"3.0"⟩, d.contains ⟨"3.0"⟩)) = Except.ok (false, true) := by
  decide +kernel

def between (low high : Text) : Restriction := ⟨some ⟨⟨low⟩, true⟩, some ⟨⟨high⟩, true⟩⟩

theorem records_touching :
    ∃ a b c d, read "[1,2],[2,3]".toList = .ok a ∧ read "[1,2.0],[2,3]".toList = .ok b ∧
      a.intersect b = .ok c ∧ c.text = "[1,2],[2],[2],[2,3]".toList ∧ read c.text = .ok d ∧
      ∀ v, d.contains v = c.contains v := by
  have ha : read "[1,2],[2,3]".toList = .ok ⟨none, [between "1" "2", between "2" "3"]⟩ := by
    decide +kernel
  have hb : read "[1,2.0],[2,3]".toList = .ok ⟨none, [between "1" "2.0", between "2" "3"]⟩ := by
    decide +kernel
  have hm : meet [between "1" "2", between "2" "3"] [between "1" "2.0", between "2" "3"] =
      [between "1" "2", between "2" "2", between "2" "2.0", between "2" "3"] := by
    rw [meet_eq (isLegible_of_read ha).pairwise (isLegible_of_read hb).pairwise]
    decide +kernel
  have hc : intersect ⟨none, [between "1" "2", between "2" "3"]⟩
      ⟨none, [between "1" "2.0", between "2" "3"]⟩ =
      .ok ⟨none, [between "1" "2", between "2" "2", between "2" "2.0", between "2" "3"]⟩ := by
    simp only [intersect, hm]
    rfl
  obtain ⟨d, hd, -, hv⟩ := records_intersection ha hb hc
  exact ⟨_, _, _, d, ha, hb, hc, by decide +kernel, hd, by simpa using hv⟩

end Constraint

end Mediation
