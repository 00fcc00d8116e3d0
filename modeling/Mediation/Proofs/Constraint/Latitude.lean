import Mediation.Constraint.Basic
import Mediation.Proofs.Version.Order

/-! # What a narrowed constraint leaves

The constraint that two others meet in admits nothing that either of them refuses, and
recommends what one of them recommended. How much a constraint leaves open, counted over
the versions that are known, never grows, and shrinks if a version had to be given up.
-/

namespace Mediation

open Std

namespace Bound

variable {a b : Bound} {v : Version} {p : Bound → Bool}

/-- The higher of two bounds meets a condition if both do, given that every bound below one that
meets it does. -/
theorem higher_iff
    (hgt : ∀ a b : Bound, a.version.compare b.version = .gt → p a = true → p b = true)
    (heq : ∀ a b : Bound, a.version.compare b.version = .eq →
      (p ⟨a.version, a.inclusive && b.inclusive⟩ = true ↔ p a = true ∧ p b = true))
    (a b : Bound) : p (a.higher b) = true ↔ p a = true ∧ p b = true := by
  unfold higher
  cases h : a.version.compare b.version with
  | lt => exact ⟨fun hb => ⟨hgt b a (OrientedCmp.gt_of_lt h) hb, hb⟩, And.right⟩
  | eq => exact heq a b h
  | gt => exact ⟨fun ha => ⟨ha, hgt a b h ha⟩, And.left⟩

/-- The lower of two bounds meets a condition if both do, given that every bound above one that
meets it does. -/
theorem lower_iff
    (hlt : ∀ a b : Bound, a.version.compare b.version = .lt → p a = true → p b = true)
    (heq : ∀ a b : Bound, a.version.compare b.version = .eq →
      (p ⟨a.version, a.inclusive && b.inclusive⟩ = true ↔ p a = true ∧ p b = true))
    (a b : Bound) : p (a.lower b) = true ↔ p a = true ∧ p b = true := by
  unfold lower
  cases h : a.version.compare b.version with
  | lt => exact ⟨fun ha => ⟨ha, hlt a b h ha⟩, And.left⟩
  | eq => exact heq a b h
  | gt => exact ⟨fun hb => ⟨hlt b a (OrientedCmp.lt_of_gt h) hb, hb⟩, And.right⟩

theorem admitsAbove_of_gt (h : a.version.compare b.version = .gt) (hv : a.admitsAbove v = true) :
    b.admitsAbove v = true := by
  have hg : v.compare b.version = .gt := by
    unfold admitsAbove at hv
    cases hc : v.compare a.version with
    | lt => simp [hc] at hv
    | eq => exact TransCmp.gt_of_eq_of_gt hc h
    | gt => exact TransCmp.gt_trans hc h
  unfold admitsAbove
  rw [hg]

theorem admitsBelow_of_lt (h : a.version.compare b.version = .lt) (hv : a.admitsBelow v = true) :
    b.admitsBelow v = true := by
  have hl : v.compare b.version = .lt := by
    unfold admitsBelow at hv
    cases hc : v.compare a.version with
    | lt => exact TransCmp.lt_trans hc h
    | eq => exact TransCmp.lt_of_eq_of_lt hc h
    | gt => simp [hc] at hv
  unfold admitsBelow
  rw [hl]

/-- A version is on or above the higher of two bounds if it is so for both. -/
theorem admitsAbove_higher (a b : Bound) (v : Version) :
    (a.higher b).admitsAbove v = true ↔ a.admitsAbove v = true ∧ b.admitsAbove v = true := by
  refine higher_iff (p := (·.admitsAbove v)) (fun _ _ => admitsAbove_of_gt) (fun a b h => ?_) a b
  unfold admitsAbove
  dsimp only
  rw [← TransCmp.congr_right h]
  cases v.compare a.version <;> simp

/-- A version is on or below the lower of two bounds if it is so for both. -/
theorem admitsBelow_lower (a b : Bound) (v : Version) :
    (a.lower b).admitsBelow v = true ↔ a.admitsBelow v = true ∧ b.admitsBelow v = true := by
  refine lower_iff (p := (·.admitsBelow v)) (fun _ _ => admitsBelow_of_lt) (fun a b h => ?_) a b
  unfold admitsBelow
  dsimp only
  rw [← TransCmp.congr_right h]
  cases v.compare a.version <;> simp

end Bound

theorem all_tighten_iff {combine : Bound → Bound → Bound} {p : Bound → Bool}
    (h : ∀ a b, p (combine a b) = true ↔ p a = true ∧ p b = true) {x y : Option Bound} :
    (tighten combine x y).all p = true ↔ x.all p = true ∧ y.all p = true := by
  cases x with
  | none => simp [tighten]
  | some a =>
    cases y with
    | none => simp [tighten]
    | some b => exact h a b

namespace Restriction

variable {r s t : Restriction} {v : Version}

def overlap (r s : Restriction) : Restriction :=
  ⟨tighten .higher r.lower s.lower, tighten .lower r.upper s.upper⟩

theorem intersect_eq (r s : Restriction) :
    r.intersect s = if (r.overlap s).hasRoom then some (r.overlap s) else none := rfl

theorem contains_overlap :
    (r.overlap s).contains v = true ↔ r.contains v = true ∧ s.contains v = true := by
  have hl : (tighten .higher r.lower s.lower).all (·.admitsAbove v) = true ↔ _ :=
    all_tighten_iff fun a b => Bound.admitsAbove_higher a b v
  have hu : (tighten .lower r.upper s.upper).all (·.admitsBelow v) = true ↔ _ :=
    all_tighten_iff fun a b => Bound.admitsBelow_lower a b v
  simp only [overlap, contains, Bool.and_eq_true, hl, hu]
  exact and_and_and_comm

theorem contains_of_intersect (h : r.intersect s = some t) (hv : t.contains v = true) :
    r.contains v = true ∧ s.contains v = true := by
  rw [intersect_eq, Option.ite_none_right_eq_some] at h
  obtain ⟨-, ⟨⟩⟩ := h
  exact contains_overlap.mp hv

end Restriction

namespace Constraint

variable {c d e : Constraint} {v : Version} {vs : List Version}

theorem intersect_eq_ok (h : c.intersect d = .ok e) :
    e = ⟨keepRecommended (meet c.restrictions d.restrictions) c.recommended d.recommended,
      meet c.restrictions d.restrictions⟩ := by
  unfold intersect at h
  split at h
  · cases h
  · cases h
    rfl

theorem mem_meet {rs ss : List Restriction} {t : Restriction} :
    t ∈ meet rs ss ↔ ∃ r ∈ rs, ∃ s ∈ ss, r.intersect s = some t := by
  simp [meet, List.mem_flatMap, List.mem_filterMap]

theorem contains_of_intersect (h : c.intersect d = .ok e) (hv : e.contains v = true) :
    c.contains v = true ∧ d.contains v = true := by
  obtain rfl := intersect_eq_ok h
  obtain ⟨t, ht, hv⟩ := List.any_eq_true.mp hv
  obtain ⟨r, hr, s, hs, ht⟩ := mem_meet.mp ht
  obtain ⟨hrv, hsv⟩ := Restriction.contains_of_intersect ht hv
  exact ⟨List.any_eq_true.mpr ⟨r, hr, hrv⟩, List.any_eq_true.mpr ⟨s, hs, hsv⟩⟩

theorem of_recommended_intersect (h : c.intersect d = .ok e) (hv : e.recommended = some v) :
    (c.recommended = some v ∨ d.recommended = some v) ∧ e.contains v = true := by
  obtain rfl := intersect_eq_ok h
  rcases Option.or_eq_some_iff.mp hv with hv | ⟨-, hv⟩
  · obtain ⟨hc, ha⟩ := Option.filter_eq_some_iff.mp hv
    exact ⟨.inl hc, ha⟩
  · obtain ⟨hd, ha⟩ := Option.filter_eq_some_iff.mp hv
    exact ⟨.inr hd, ha⟩

/-- The recommendation of the first constraint is kept as long as it is acceptable. -/
theorem recommended_intersect (h : c.intersect d = .ok e) (hc : c.recommended = some v)
    (hv : e.contains v = true) : e.recommended = some v := by
  obtain rfl := intersect_eq_ok h
  exact Option.or_eq_some_iff.mpr (.inl (Option.filter_eq_some_iff.mpr ⟨hc, hv⟩))

/-- The part of the latitude that is not counted in versions. -/
def slack (c : Constraint) : ℕ :=
  match c.recommended with
  | none => 1
  | some v => if c.contains v then 0 else 2

def latitude (vs : List Version) (c : Constraint) : ℕ := 3 * vs.countP c.contains + c.slack

theorem slack_le (c : Constraint) : c.slack ≤ 2 := by
  unfold slack
  split
  · decide
  · split <;> decide

theorem latitude_le (vs : List Version) (c : Constraint) :
    c.latitude vs ≤ 3 * vs.length + 2 := by
  have hc := List.countP_le_length (p := c.contains) (l := vs)
  have hs := c.slack_le
  unfold latitude
  omega

theorem countP_le_of_intersect (h : c.intersect d = .ok e) (vs : List Version) :
    vs.countP e.contains ≤ vs.countP c.contains :=
  List.countP_mono_left fun _ _ hv => (contains_of_intersect h hv).1

theorem countP_lt_of_intersect (h : c.intersect d = .ok e) (hm : v ∈ vs)
    (hc : c.contains v = true) (he : e.contains v = false) :
    vs.countP e.contains < vs.countP c.contains := by
  obtain ⟨us, ws, rfl⟩ := List.append_of_mem hm
  have hu := countP_le_of_intersect h us
  have hw := countP_le_of_intersect h ws
  simp only [List.countP_append, List.countP_cons, hc, he, if_true]
  simp only [Bool.false_eq_true, if_false]
  omega

theorem slack_intersect_le (h : c.intersect d = .ok e) : e.slack ≤ 1 := by
  unfold slack
  split
  · exact Nat.le_refl 1
  · rename_i v hv
    rw [if_pos (of_recommended_intersect h hv).2]
    exact Nat.zero_le 1

theorem slack_eq_zero_of_intersect (h : c.intersect d = .ok e) (hr : e.recommended ≠ none) :
    e.slack = 0 := by
  obtain ⟨v, hv⟩ := Option.ne_none_iff_exists'.mp hr
  unfold slack
  rw [hv]
  exact if_pos (of_recommended_intersect h hv).2

/-- A narrowing takes something away if it refuses what was recommended, or leaves a range with
less to choose from. -/
theorem latitude_lt_of_intersect (h : c.intersect d = .ok e)
    (hk : ∀ r, c.recommended = some r → r ∈ vs ∧ e.contains r = false)
    (hn : c.recommended = none → e.recommended ≠ none ∨
      ∃ w ∈ vs, c.contains w = true ∧ e.contains w = false) :
    e.latitude vs < c.latitude vs := by
  have hle := countP_le_of_intersect h vs
  have hs := slack_intersect_le h
  unfold latitude
  cases hc : c.recommended with
  | none =>
    have h₁ : c.slack = 1 := by unfold slack; rw [hc]
    rcases hn hc with hr | ⟨w, hw, hcw, hew⟩
    · have h₂ := slack_eq_zero_of_intersect h hr
      omega
    · have h₂ := countP_lt_of_intersect h hw hcw hew
      omega
  | some r =>
    obtain ⟨hm, he⟩ := hk r hc
    have h₁ : c.slack = if c.contains r then 0 else 2 := by unfold slack; rw [hc]
    cases hcr : c.contains r with
    | true =>
      have h₂ := countP_lt_of_intersect h hm hcr he
      omega
    | false =>
      rw [hcr] at h₁
      have h₁ : c.slack = 2 := h₁
      omega

theorem latitude_le_of_intersect (h : c.intersect d = .ok e)
    (hk : ∀ r, c.recommended = some r → r ∈ vs) : e.latitude vs ≤ c.latitude vs := by
  cases hc : c.recommended with
  | none =>
    have hs := slack_intersect_le h
    have hle := countP_le_of_intersect h vs
    have h₁ : c.slack = 1 := by unfold slack; rw [hc]
    unfold latitude
    omega
  | some r =>
    cases he : e.contains r with
    | true =>
      have h₁ := slack_eq_zero_of_intersect h (by rw [recommended_intersect h hc he]; nofun)
      have hle := countP_le_of_intersect h vs
      unfold latitude
      omega
    | false =>
      refine Nat.le_of_lt (latitude_lt_of_intersect h (fun q hq => ?_) fun hn => ?_)
      · obtain rfl := Option.some.inj (hc.symm.trans hq)
        exact ⟨hk r hc, he⟩
      · rw [hc] at hn
        cases hn

end Constraint

end Mediation
