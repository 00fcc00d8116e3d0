import Mathlib.Data.List.Induction
import Mediation.Proofs.Constraint.Meeting
import Mediation.Proofs.Resolution.Terms

/-! # What a constraint calls for

A constraint calls for the version that it recommends, or else for the first of the highest
acceptable ones among those that are listed. That choice is stable: a narrower constraint that still
accepts the version chosen before chooses it again.
-/

namespace Mediation

namespace Version

variable {u v w : Version} {vs : List Version}

theorem same_refl (v : Version) : v.same v = true := beq_self_eq_true _

theorem same_symm (h : v.same w = true) : w.same v = true := by
  rw [same, beq_iff_eq] at h ⊢
  exact h.symm

theorem same_trans (h : u.same v = true) (h' : v.same w = true) : u.same w = true := by
  rw [same, beq_iff_eq] at h h' ⊢
  exact h.trans h'

theorem precedes_iff : v.precedes w = true ↔ v.compare w = .lt := beq_iff_eq

def IsTop (vs : List Version) (v : Version) : Prop :=
  ∃ before after, vs = before ++ v :: after ∧ (∀ u ∈ before, u.precedes v = true) ∧
    ∀ u ∈ after, v.precedes u = false

theorem IsTop.filter (h : IsTop vs v) {p : Version → Bool} (hv : p v = true) :
    IsTop (vs.filter p) v := by
  obtain ⟨before, after, rfl, hb, ha⟩ := h
  refine ⟨before.filter p, after.filter p, ?_, fun u hu => hb u (List.mem_filter.mp hu).1,
    fun u hu => ha u (List.mem_filter.mp hu).1⟩
  rw [List.filter_append, List.filter_cons_of_pos hv]

theorem IsTop.isLE (h : IsTop vs v) (hu : u ∈ vs) : (u.compare v).isLE = true := by
  obtain ⟨before, after, rfl, hb, ha⟩ := h
  rcases List.mem_append.mp hu with hu | hu
  · rw [precedes_iff.mp (hb u hu)]
    rfl
  · rcases List.mem_cons.mp hu with rfl | hu
    · exact Std.ReflCmp.isLE_rfl
    · have hlt := ha u hu
      rw [← Bool.not_eq_true, precedes_iff] at hlt
      exact Ordering.isLE_iff_ne_gt.mpr fun hgt => hlt (Std.OrientedCmp.gt_iff_lt.mp hgt)

end Version

namespace Constraint

open Version

variable {c d e k : Constraint} {r v w : Version} {vs : List Version} {a : Artifact}

theorem foldl_better_of_not_precedes (h : ∀ u ∈ vs, v.precedes u = false) :
    vs.foldl better (some v) = some v := by
  induction vs with
  | nil => rfl
  | cons u vs ih =>
    have hu : better (some v) u = some v := by simp [better, h u List.mem_cons_self]
    rw [List.foldl_cons, hu]
    exact ih fun u hu => h u (List.mem_cons_of_mem _ hu)

theorem foldl_better_eq_none (h : vs.foldl better none = none) : vs = [] := by
  rcases List.eq_nil_or_concat vs with rfl | ⟨vs, v, rfl⟩
  · rfl
  · rw [List.concat_eq_append, List.foldl_append, List.foldl_cons, List.foldl_nil] at h
    unfold better at h
    split at h
    · cases h
    · split at h <;> cases h

theorem foldl_better_iff : vs.foldl better none = some v ↔ IsTop vs v := by
  constructor
  · induction vs using List.reverseRecOn generalizing v with
    | nil => exact nofun
    | append_singleton vs w ih =>
      intro h
      rw [List.foldl_append, List.foldl_cons, List.foldl_nil] at h
      cases hb : vs.foldl better none with
      | none =>
        obtain rfl := foldl_better_eq_none hb
        cases h
        exact ⟨[], [], rfl, nofun, nofun⟩
      | some b =>
        have htop := ih hb
        simp only [hb, better] at h
        split at h <;> rename_i hbw <;> cases h
        · -- the last version is above all before it
          refine ⟨vs, [], rfl, fun u hu => ?_, nofun⟩
          rw [precedes_iff] at hbw ⊢
          exact Std.TransCmp.lt_of_isLE_of_lt (htop.isLE hu) hbw
        · obtain ⟨before, after, rfl, hlt, hle⟩ := htop
          refine ⟨before, after ++ [w], by simp, hlt, fun u hu => ?_⟩
          rcases List.mem_append.mp hu with hu | hu
          · exact hle u hu
          · rw [List.mem_singleton.mp hu]
            exact Bool.eq_false_iff.mpr hbw
  · rintro ⟨before, after, rfl, hb, ha⟩
    have hv : better (before.foldl better none) v = some v := by
      unfold better
      split
      · rfl
      · rename_i b hf
        rw [if_pos (hb b ((mem_of_foldl_better hf).resolve_left nofun))]
    rw [List.foldl_append, List.foldl_cons, hv]
    exact foldl_better_of_not_precedes ha

theorem select_eq_ok_iff : c.select vs = .ok v ↔ IsTop (vs.filter c.contains) v := by
  rw [← foldl_better_iff]
  unfold select highest
  split <;> rename_i hf <;> simp [hf]

theorem select_of_within (h : c.select vs = .ok v)
    (hd : ∀ u, d.contains u = true → c.contains u = true) (hv : d.contains v = true) :
    d.select vs = .ok v := by
  rw [select_eq_ok_iff] at h ⊢
  have hfilter : (vs.filter c.contains).filter d.contains = vs.filter d.contains := by
    rw [List.filter_filter]
    refine List.filter_congr fun u _ => ?_
    cases hu : d.contains u with
    | false => rfl
    | true => simp [hd u hu]
  exact hfilter ▸ h.filter hv

/-- Whether a constraint calls for a version among the listed ones: it is the recommended one, or
the highest acceptable one where none is recommended. -/
inductive Calls (c : Constraint) (vs : List Version) (v : Version) : Prop
  | recommended {r : Version} (h : c.recommended = some r) (hv : v.same r = true)
  | highest (h : c.recommended = none) (hv : c.select vs = .ok v)

theorem Calls.same (h : c.Calls vs v) (h' : c.Calls vs w) : v.same w = true := by
  cases h with
  | recommended hr hv =>
    cases h' with
    | recommended hr' hw =>
      obtain rfl := Option.some.inj (hr.symm.trans hr')
      exact same_trans hv (same_symm hw)
    | highest hn => exact absurd (hn.symm.trans hr) nofun
  | highest hn hv =>
    cases h' with
    | recommended hr => exact absurd (hn.symm.trans hr) nofun
    | highest _ hw =>
      obtain rfl := Except.ok.inj (hv.symm.trans hw)
      exact same_refl v

/-- Whether a constraint calls for a version, or would do so without its recommendation if it
accepts the version at all. -/
def Suits (c : Constraint) (vs : List Version) (v : Version) : Prop :=
  c.Calls vs v ∨ c.recommended ≠ none ∧ (c.contains v = true → c.select vs = .ok v)

/-- The recommendation of either constraint is kept if it is acceptable and there is no other. -/
theorem recommended_ne_none_of_intersect (h : c.intersect d = .ok e)
    (hr : c.recommended = some r ∨ d.recommended = some r) (he : e.contains r = true) :
    e.recommended ≠ none := by
  obtain rfl := intersect_eq_ok h
  intro hn
  obtain ⟨hc, hd⟩ := Option.or_eq_none_iff.mp hn
  have hacceptable : ((meet c.restrictions d.restrictions).any fun t => t.contains r) = true := he
  rcases hr with hr | hr
  · simp [hr, Option.filter, hacceptable] at hc
  · simp [hr, Option.filter, hacceptable] at hd

theorem contains_of_same (h : v.same w = true) (hv : c.contains v = true) :
    c.contains w = true := by
  rwa [← contains_of_eq c (compare_eq_of_same h)]

/-- A version that suits a constraint and is acceptable to what it meets in is called for there,
or would be without the recommendation. -/
theorem Suits.of_contains (h : c.Suits vs v) (hm : c.intersect d = .ok e)
    (hv : e.contains v = true) :
    (∃ r, e.recommended = some r ∧ v.same r = true) ∨ e.select vs = .ok v := by
  have hin (u : Version) (hu : e.contains u = true) : c.contains u = true :=
    (contains_of_intersect hm hu).1
  rcases h with (⟨hr, hvr⟩ | ⟨-, hs⟩) | ⟨-, hs⟩
  · exact .inl ⟨_, recommended_intersect hm hr (contains_of_same hvr hv), hvr⟩
  · exact .inr (select_of_within hs hin hv)
  · exact .inr (select_of_within (hs (hin v hv)) hin hv)

/-- A version that is kept when its constraint is narrowed suits the narrower one. -/
theorem Suits.retain (h : c.Suits vs v) (hm : c.intersect d = .ok e)
    (hv : a.selected = some v) (hk : Run.keepsVersion a e = true) : e.Suits vs v := by
  rw [Run.keepsVersion, hv] at hk
  cases he : e.recommended with
  | none =>
    rw [he] at hk
    rcases h.of_contains hm hk with ⟨r, hr, -⟩ | hs
    · rw [he] at hr
      cases hr
    · exact .inl (.highest he hs)
  | some r =>
    by_cases hvr : v.same r = true
    · exact .inl (.recommended he hvr)
    · have hne : e.recommended ≠ none := Option.ne_none_iff_exists'.mpr ⟨r, he⟩
      refine .inr ⟨hne, fun hev => (h.of_contains hm hev).resolve_left ?_⟩
      rintro ⟨r', hr', hvr'⟩
      obtain rfl := Option.some.inj (he.symm.trans hr')
      exact hvr hvr'

/-- A kept version is called for unless another one is recommended, which was declared. -/
theorem Suits.calls_of_keepsVersion (h : e.Suits vs v) (hv : a.selected = some v)
    (hk : Run.keepsVersion a e = true) : e.Calls vs v ∨
      ∃ r, e.recommended = some r ∧ a.declared.any r.same = true ∧ r.same v = false := by
  refine or_iff_not_imp_left.mpr fun hcalls => ?_
  obtain ⟨hne, -⟩ := h.resolve_left hcalls
  obtain ⟨r, hr⟩ := Option.ne_none_iff_exists'.mp hne
  have hrv : r.same v = false := Bool.eq_false_iff.mpr fun hrv =>
    hcalls (.recommended hr (same_symm hrv))
  rw [Run.keepsVersion, hr, hv] at hk
  simp only [Option.any_some, hrv, Bool.false_or, Option.isSome_some, Bool.true_and] at hk
  exact ⟨r, hr, hk, hrv⟩

/-- A version that was declared and called for is called for by a narrower constraint under which
it is kept. -/
theorem Calls.retain (h : d.Calls vs v) (hm : k.intersect d = .ok e) (hv : a.selected = some v)
    (hd : a.declared.any v.same = true) (hk : Run.keepsVersion a e = true) : e.Calls vs v := by
  rw [Run.keepsVersion, hv] at hk
  cases he : e.recommended with
  | none =>
    rw [he] at hk
    have hev : e.contains v = true := hk
    cases h with
    | recommended hr hvr =>
      refine absurd he (recommended_ne_none_of_intersect hm (.inr hr) ?_)
      exact contains_of_same hvr hev
    | highest _ hs =>
      exact .highest he (select_of_within hs (fun u hu => (contains_of_intersect hm hu).2) hev)
  | some r =>
    rw [he] at hk
    refine .recommended he ?_
    simp only [Option.any_some, Bool.or_eq_true, Option.isSome_some, Bool.true_and] at hk
    rcases hk with hrv | hrd
    · exact same_symm hrv
    · obtain ⟨b, hb, hvb⟩ := (Option.any_eq_true _ _).mp hd
      rw [hb] at hrd
      exact same_trans hvb (same_symm hrd)

end Constraint

end Mediation
