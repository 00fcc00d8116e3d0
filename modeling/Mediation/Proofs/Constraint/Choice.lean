import Mediation.Proofs.Constraint.Selection

/-! # The version chosen from a list

A constraint chooses the first of the highest acceptable versions that are listed, and fails only
if none is acceptable. Spellings of one version are acceptable together, so the choice is the first
of its spellings in the whole list, and it is made again for as long as it stays acceptable.
-/

namespace Mediation.Constraint

open Version

variable {c d : Constraint} {v : Version} {vs : List Version} {e : ConstraintError}

theorem select_eq_error (h : c.select vs = .error e) :
    e = .noVersionInRange c.text (vs.map (·.text)) ∧ ∀ v ∈ vs, c.contains v = false := by
  unfold select at h
  split at h
  · cases h
  · rename_i hnone
    refine ⟨(Except.error.inj h).symm, fun v hv => ?_⟩
    have hempty : vs.filter c.contains = [] := foldl_better_eq_none hnone
    simpa using List.filter_eq_nil_iff.mp hempty v hv

theorem mem_of_select (h : c.select vs = .ok v) : v ∈ vs ∧ c.contains v = true := by
  obtain ⟨before, after, hsplit, -⟩ := select_eq_ok_iff.mp h
  have hmem : v ∈ vs.filter c.contains := hsplit ▸ List.mem_append_right _ List.mem_cons_self
  exact List.mem_filter.mp hmem

theorem exists_split_of_select (h : c.select vs = .ok v) :
    ∃ before after, vs = before ++ v :: after ∧ ∀ u ∈ before, u.same v = false := by
  have hv := (mem_of_select h).2
  obtain ⟨before, after, hsplit, hbefore, -⟩ := select_eq_ok_iff.mp h
  obtain ⟨first, rest, rfl, hfirst, hrest⟩ := List.filter_eq_append_iff.mp hsplit
  obtain ⟨refused, others, rfl, hrefused, -, -⟩ := List.filter_eq_cons_iff.mp hrest
  refine ⟨first ++ refused, others, by rw [List.append_assoc], fun u hu => ?_⟩
  refine Bool.eq_false_iff.mpr fun hsame => ?_
  have hcontains : c.contains u = true := contains_of_same (same_symm hsame) hv
  rcases List.mem_append.mp hu with hu | hu
  · have hlt := hbefore u (hfirst ▸ List.mem_filter.mpr ⟨hu, hcontains⟩)
    rw [precedes_iff, compare_eq_of_same hsame] at hlt
    cases hlt
  · exact hrefused u hu hcontains

/-- A constraint chooses an acceptable version that no other acceptable one exceeds, the first of
its spellings, and it fails only if no version is acceptable. A narrower constraint that still
accepts the choice makes it again. -/
theorem selects_first_of_highest (c : Constraint) (vs : List Version) :
    match c.select vs with
    | .ok v =>
      v ∈ vs ∧ c.contains v = true ∧ (∀ u ∈ vs, c.contains u = true → u.compare v ≠ .gt) ∧
      (∃ before after, vs = before ++ v :: after ∧ ∀ u ∈ before, u.same v = false) ∧
      ∀ d e, c.intersect d = .ok e → e.contains v = true → e.select vs = .ok v
    | .error e =>
      e = .noVersionInRange c.text (vs.map (·.text)) ∧ ∀ v ∈ vs, c.contains v = false := by
  cases h : c.select vs with
  | error e => exact select_eq_error h
  | ok v =>
    obtain ⟨hmem, hv⟩ := mem_of_select h
    refine ⟨hmem, hv, fun u hu hcontains => ?_, exists_split_of_select h, fun d e hmeet he => ?_⟩
    · have hle := (select_eq_ok_iff.mp h).isLE (List.mem_filter.mpr ⟨hu, hcontains⟩)
      exact Ordering.isLE_iff_ne_gt.mp hle
    · exact select_of_within h (fun u hu => (contains_of_intersect hmeet hu).1) he

def early : Constraint := ⟨none, [⟨some ⟨⟨"0.5"⟩, true⟩, some ⟨⟨"2.0"⟩, false⟩⟩]⟩

/-- A list in which the highest of these versions is spelled in two ways. -/
def respelt : List Version := [⟨"0.9"⟩, ⟨"1.0"⟩, ⟨"1"⟩, ⟨"2.0"⟩]

/-- The spelling that is listed first is chosen, also when the other one is asked for. -/
theorem selects_first_of_highest_of_respelt :
    early.select respelt = .ok ⟨"1.0"⟩ ∧ (⟨"1"⟩ : Version).compare ⟨"1.0"⟩ ≠ .gt ∧
      early.intersect (.exact ⟨"1"⟩) = .ok (.exact ⟨"1"⟩) ∧
      (Constraint.exact ⟨"1"⟩).select respelt = .ok ⟨"1.0"⟩ := by
  have hselect : early.select respelt = .ok ⟨"1.0"⟩ := by decide +kernel
  have hmeet : early.intersect (.exact ⟨"1"⟩) = .ok (.exact ⟨"1"⟩) := by decide +kernel
  have h := selects_first_of_highest early respelt
  rw [hselect] at h
  obtain ⟨-, -, hhighest, -, hstable⟩ := h
  exact ⟨hselect, hhighest ⟨"1"⟩ (by simp [respelt]) (by decide +kernel), hmeet,
    hstable _ _ hmeet (by decide +kernel)⟩

end Mediation.Constraint
