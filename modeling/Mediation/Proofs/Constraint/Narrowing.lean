import Mathlib.Data.List.Perm.Basic
import Mediation.Constraint.Reader
import Mediation.Proofs.Constraint.Meeting

/-! # Narrowing step by step

Constraints met one after the other have room exactly if each of them offers an interval such that
no lower bound of these lies above an upper one. This does not depend on their order, and neither
does what the narrowed constraint admits.
-/

namespace Mediation

open Std

namespace Bound

variable {a b low high : Bound}

theorem admitsBetween_of_gt (h : a.version.compare b.version = .gt)
    (ha : a.admitsBetween high = true) : b.admitsBetween high = true := by
  have hl : b.version.compare high.version = .lt := by
    have hba := OrientedCmp.lt_of_gt h
    unfold admitsBetween at ha
    cases hc : a.version.compare high.version with
    | lt => exact TransCmp.lt_trans hba hc
    | eq => exact TransCmp.lt_of_lt_of_eq hba hc
    | gt => simp [hc] at ha
  unfold admitsBetween
  rw [hl]

theorem admitsBetween_of_lt (h : a.version.compare b.version = .lt)
    (ha : low.admitsBetween a = true) : low.admitsBetween b = true := by
  have hl : low.version.compare b.version = .lt := by
    unfold admitsBetween at ha
    cases hc : low.version.compare a.version with
    | lt => exact TransCmp.lt_trans hc h
    | eq => exact TransCmp.lt_of_eq_of_lt hc h
    | gt => simp [hc] at ha
  unfold admitsBetween
  rw [hl]

/-- There is room above the higher of two bounds if there is above both. -/
theorem admitsBetween_higher (a b high : Bound) :
    (a.higher b).admitsBetween high = true ↔
      a.admitsBetween high = true ∧ b.admitsBetween high = true := by
  refine higher_iff (p := (·.admitsBetween high)) (fun _ _ => admitsBetween_of_gt)
    (fun a b h => ?_) a b
  unfold admitsBetween
  dsimp only
  rw [← TransCmp.congr_left h]
  cases a.version.compare high.version <;> grind

/-- There is room below the lower of two bounds if there is below both. -/
theorem admitsBetween_lower (low a b : Bound) :
    low.admitsBetween (a.lower b) = true ↔
      low.admitsBetween a = true ∧ low.admitsBetween b = true := by
  refine lower_iff (p := low.admitsBetween) (fun _ _ => admitsBetween_of_lt)
    (fun a b h => ?_) a b
  unfold admitsBetween
  dsimp only
  rw [← TransCmp.congr_right h]
  cases low.version.compare a.version <;> grind

end Bound

namespace Restriction

variable {r s t : Restriction} {rs ss : List Restriction}

/-- Whether there is room between the lower bound of one interval and the upper one of another. -/
def reaches (r s : Restriction) : Bool := r.lower.all fun low => s.upper.all low.admitsBetween

def Fit (rs : List Restriction) : Prop := ∀ r ∈ rs, ∀ s ∈ rs, r.reaches s = true

theorem hasRoom_eq_reaches (r : Restriction) : r.hasRoom = r.reaches r := by
  unfold hasRoom reaches
  cases r.lower <;> cases r.upper <;> rfl

theorem overlap_reaches :
    (r.overlap s).reaches t = true ↔ r.reaches t = true ∧ s.reaches t = true := by
  refine all_tighten_iff fun a b => ?_
  cases t.upper with
  | none => exact ⟨fun _ => ⟨rfl, rfl⟩, fun _ => rfl⟩
  | some high => exact Bound.admitsBetween_higher a b high

theorem reaches_overlap :
    t.reaches (r.overlap s) = true ↔ t.reaches r = true ∧ t.reaches s = true := by
  unfold reaches
  cases t.lower with
  | none => exact ⟨fun _ => ⟨rfl, rfl⟩, fun _ => rfl⟩
  | some low => exact all_tighten_iff fun a b => Bound.admitsBetween_lower low a b

theorem fit_overlap : Fit (r.overlap s :: rs) ↔ Fit (r :: s :: rs) := by
  simp only [Fit, List.forall_mem_cons, overlap_reaches, reaches_overlap]
  grind

theorem intersect_eq_some : r.intersect s = some t ↔ t = r.overlap s ∧ Fit [r, s] := by
  have hroom : (r.overlap s).hasRoom = true ↔ Fit [r, s] := by
    rw [← fit_overlap, hasRoom_eq_reaches]
    simp [Fit]
  rw [intersect_eq, ← hroom, Option.ite_none_right_eq_some, Option.some_inj, eq_comm (a := t),
    and_comm]

theorem Fit.mono (hf : Fit rs) (h : ss ⊆ rs) : Fit ss :=
  fun r hr s hs => hf r (h hr) s (h hs)

end Restriction

namespace Constraint

open Restriction (Fit fit_overlap intersect_eq_some)

variable {c d f : Constraint} {cs ds : List Constraint}

def narrow (c : Constraint) (ds : List Constraint) : Except ConstraintError Constraint :=
  ds.foldlM intersect c

theorem narrow_cons_eq_ok :
    c.narrow (d :: ds) = .ok f ↔ ∃ e, c.intersect d = .ok e ∧ e.narrow ds = .ok f := by
  unfold narrow
  rw [List.foldlM_cons]
  cases c.intersect d with
  | ok e => exact ⟨fun h => ⟨e, rfl, h⟩, fun ⟨_, he, h⟩ => (Except.ok.inj he) ▸ h⟩
  | error _ => exact ⟨nofun, fun ⟨_, he, _⟩ => nomatch he⟩

theorem contains_narrow (h : c.narrow ds = .ok f) (v : Version) :
    f.contains v = true ↔ ∀ d ∈ c :: ds, d.contains v = true := by
  induction ds generalizing c with
  | nil =>
    cases h
    simp
  | cons d ds ih =>
    obtain ⟨e, he, hf⟩ := narrow_cons_eq_ok.mp h
    rw [ih hf, List.forall_mem_cons, contains_intersect he, List.forall_mem_cons,
      List.forall_mem_cons, and_assoc]

abbrev Offers : List Constraint → List Restriction → Prop :=
  List.Forall₂ fun c r => r ∈ c.restrictions

theorem exists_offers_cons (c : Constraint) (cs : List Constraint) {P : List Restriction → Prop} :
    (∃ rs, Offers (c :: cs) rs ∧ P rs) ↔
      ∃ r ∈ c.restrictions, ∃ rs, Offers cs rs ∧ P (r :: rs) := by
  constructor
  · rintro ⟨_, _ | ⟨hr, hrs⟩, hP⟩
    exact ⟨_, hr, _, hrs, hP⟩
  · rintro ⟨r, hr, rs, hrs, hP⟩
    exact ⟨r :: rs, .cons hr hrs, hP⟩

theorem exists_intersect_iff_meet :
    (∃ e, c.intersect d = .ok e) ↔ ∃ t, t ∈ meet c.restrictions d.restrictions := by
  unfold intersect
  cases meet c.restrictions d.restrictions with
  | nil => simp
  | cons t ts => exact ⟨fun _ => ⟨t, List.mem_cons_self⟩, fun _ => ⟨_, rfl⟩⟩

theorem exists_mem_intersect_iff {P : Restriction → Prop} :
    (∃ e, c.intersect d = .ok e ∧ ∃ t ∈ e.restrictions, P t) ↔
      ∃ r ∈ c.restrictions, ∃ s ∈ d.restrictions, Fit [r, s] ∧ P (r.overlap s) := by
  constructor
  · rintro ⟨e, he, t, ht, hP⟩
    rw [intersect_eq_ok he] at ht
    obtain ⟨r, hr, s, hs, hrs⟩ := mem_meet.mp ht
    obtain ⟨rfl, hfit⟩ := intersect_eq_some.mp hrs
    exact ⟨r, hr, s, hs, hfit, hP⟩
  · rintro ⟨r, hr, s, hs, hfit, hP⟩
    have ht : r.overlap s ∈ meet c.restrictions d.restrictions :=
      mem_meet.mpr ⟨r, hr, s, hs, intersect_eq_some.mpr ⟨rfl, hfit⟩⟩
    obtain ⟨e, he⟩ := exists_intersect_iff_meet.mpr ⟨_, ht⟩
    refine ⟨e, he, r.overlap s, ?_, hP⟩
    rwa [intersect_eq_ok he]

theorem exists_intersect_iff : (∃ e, c.intersect d = .ok e) ↔
    ∃ r ∈ c.restrictions, ∃ s ∈ d.restrictions, Fit [r, s] := by
  simp only [exists_intersect_iff_meet, mem_meet, intersect_eq_some]
  grind

/-- A chain of meetings has room exactly if the constraints offer intervals that fit. -/
theorem exists_narrow_iff :
    (∃ f, c.narrow (d :: ds) = .ok f) ↔ ∃ rs, Offers (c :: d :: ds) rs ∧ Fit rs := by
  induction ds generalizing c d with
  | nil =>
    have hone : (∃ f, c.narrow [d] = .ok f) ↔ ∃ e, c.intersect d = .ok e :=
      ⟨fun ⟨f, hf⟩ => (narrow_cons_eq_ok.mp hf).imp fun _ => And.left,
        fun ⟨e, he⟩ => ⟨e, narrow_cons_eq_ok.mpr ⟨e, he, rfl⟩⟩⟩
    rw [hone, exists_intersect_iff]
    simp only [exists_offers_cons, List.forall₂_nil_left_iff, exists_eq_left]
  | cons d' ds ih =>
    calc (∃ f, c.narrow (d :: d' :: ds) = .ok f)
        ↔ ∃ e, c.intersect d = .ok e ∧ ∃ f, e.narrow (d' :: ds) = .ok f := by
          simp only [narrow_cons_eq_ok (d := d)]
          grind
      _ ↔ ∃ e, c.intersect d = .ok e ∧
            ∃ t ∈ e.restrictions, ∃ ts, Offers (d' :: ds) ts ∧ Fit (t :: ts) := by
          simp only [ih, exists_offers_cons _ (d' :: ds)]
      _ ↔ ∃ r ∈ c.restrictions, ∃ s ∈ d.restrictions,
            ∃ ts, Offers (d' :: ds) ts ∧ Fit (r :: s :: ts) := by
          -- an overlap fits others if both its parts do, and these fit each other then
          have hpair {r s ts} (h : Fit (r :: s :: ts)) : Fit [r, s] := h.mono (by simp)
          simp only [exists_mem_intersect_iff, fit_overlap]
          grind
      _ ↔ ∃ rs, Offers (c :: d :: d' :: ds) rs ∧ Fit rs := by
          simp only [exists_offers_cons _ (d' :: ds), exists_offers_cons _ (d :: d' :: ds)]

theorem exists_narrow_of_perm (h : (c :: cs).Perm (d :: ds)) (hc : ∃ e, c.narrow cs = .ok e) :
    ∃ f, d.narrow ds = .ok f := by
  match cs, ds, h with
  | _, [], _ => exact ⟨d, rfl⟩
  | [], _ :: _, h => exact absurd h.length_eq (by simp)
  | _ :: _, _ :: _, h =>
    obtain ⟨rs, hrs, hfit⟩ := exists_narrow_iff.mp hc
    obtain ⟨ss, hss, hperm⟩ := List.perm_comp_forall₂ h.symm hrs
    exact exists_narrow_iff.mpr ⟨ss, hss, hfit.mono hperm.subset⟩

/-- Constraints may be met in any order: one chain has room if another one has, and then both
admit the same versions. -/
theorem narrow_perm (h : (c :: cs).Perm (d :: ds)) :
    ((∃ e, c.narrow cs = .ok e) ↔ ∃ f, d.narrow ds = .ok f) ∧
    ∀ e f, c.narrow cs = .ok e → d.narrow ds = .ok f → ∀ v, e.contains v = f.contains v := by
  refine ⟨⟨exists_narrow_of_perm h, exists_narrow_of_perm h.symm⟩, fun e f he hf v => ?_⟩
  rw [Bool.eq_iff_iff, contains_narrow he, contains_narrow hf]
  exact ⟨fun hv d hd => hv d (h.mem_iff.mpr hd), fun hv c hc => hv c (h.mem_iff.mp hc)⟩

def gapped : Constraint :=
  ⟨none, [⟨some ⟨⟨"1"⟩, true⟩, some ⟨⟨"2"⟩, false⟩⟩, ⟨some ⟨⟨"3"⟩, true⟩, none⟩]⟩

def bridging : Constraint := ⟨none, [⟨some ⟨⟨"1.5"⟩, false⟩, some ⟨⟨"3.0"⟩, false⟩⟩]⟩

def bridged : Constraint := ⟨some ⟨"1.7"⟩, [⟨some ⟨⟨"1.5"⟩, false⟩, some ⟨⟨"2"⟩, false⟩⟩]⟩

/-- Two ranges and a recommendation have room in one order, and so they have in the other one. -/
theorem narrow_perm_of_gapped :
    read "[1,2),[3,)" = .ok gapped ∧ read "(1.5,3.0)" = .ok bridging ∧
    read "1.7" = .ok (soft ⟨"1.7"⟩) ∧ gapped.narrow [bridging, soft ⟨"1.7"⟩] = .ok bridged ∧
    ∃ f, (soft ⟨"1.7"⟩).narrow [bridging, gapped] = .ok f ∧
      ∀ v, bridged.contains v = f.contains v := by
  have hb : gapped.narrow [bridging, soft ⟨"1.7"⟩] = .ok bridged := by decide +kernel
  have hperm : [gapped, bridging, soft ⟨"1.7"⟩].Perm [soft ⟨"1.7"⟩, bridging, gapped] :=
    (List.reverse_perm [gapped, bridging, soft ⟨"1.7"⟩]).symm
  obtain ⟨f, hf⟩ := (narrow_perm hperm).1.mp ⟨bridged, hb⟩
  exact ⟨by decide +kernel, by decide +kernel, by decide +kernel, hb, f, hf,
    (narrow_perm hperm).2 bridged f hb hf⟩

end Constraint

end Mediation
