import Mathlib
import Mediation.Proofs.Text.Digits
import Mediation.Text.Blank

/-! # ASCII letters

Lower case changes letters only, and makes letters of them. So whatever tells no letters apart
finds a text and its lower case alike.
-/

namespace Mediation.Text

variable {c : Char} {s t : Text}

theorem toLower_of_not_isAlpha (h : c.isAlpha = false) : c.toLower = c :=
  Char.toLower_eq_of_not_isUpper fun hu => by simp [Char.isAlpha, hu] at h

theorem eq_of_not_isAlpha_toLower (h : c.toLower.isAlpha = false) : c.toLower = c :=
  toLower_of_not_isAlpha (Char.isAlpha_toLower_eq_isAlpha c ▸ h)

/-- What holds of no letter holds of a character if it does of its lower case. -/
theorem apply_toLower {p : Char → Bool} (hp : ∀ c, c.isAlpha = true → p c = false) (c : Char) :
    p c.toLower = p c := by
  cases hc : c.isAlpha with
  | false => rw [toLower_of_not_isAlpha hc]
  | true => rw [hp c hc, hp c.toLower (Char.isAlpha_toLower_eq_isAlpha c ▸ hc)]

theorem toNat_of_isAlpha (h : c.isAlpha = true) :
    65 ≤ c.toNat ∧ c.toNat ≤ 90 ∨ 97 ≤ c.toNat ∧ c.toNat ≤ 122 := by
  simpa [Char.isAlpha, Char.isUpper, Char.isLower, UInt32.le_iff_toNat_le] using h

theorem not_isBlank (h : 48 ≤ c.toNat) (h' : c.toNat ≤ 122) : isBlank c = false := by
  simp only [isBlank, Bool.or_eq_false_iff, Bool.and_eq_false_iff, decide_eq_false_iff_not,
    beq_eq_false_iff_ne]
  omega

theorem not_isBlank_of_isDigit (h : c.isDigit = true) : isBlank c = false := by
  have hn := toNat_of_isDigit h
  exact not_isBlank hn.1 (by omega)

theorem not_isBlank_of_isAlpha (h : c.isAlpha = true) : isBlank c = false := by
  have hn := toNat_of_isAlpha h
  exact not_isBlank (by omega) (by omega)

theorem isBlank_toLower (c : Char) : isBlank c.toLower = isBlank c :=
  apply_toLower (fun _ => not_isBlank_of_isAlpha) c

theorem isDigit_toLower (c : Char) : c.toLower.isDigit = c.isDigit := by
  refine apply_toLower (fun c hc => Bool.eq_false_iff.mpr fun hd => ?_) c
  have hn := toNat_of_isAlpha hc
  have hd := toNat_of_isDigit hd
  omega

theorem not_isAlpha_of_isDecimalDigit (h : isDecimalDigit c = true) : c.isAlpha = false := by
  have hz : ∀ d ∈ decimalZeros, d + 10 ≤ 65 ∨ 122 < d := by decide
  obtain ⟨d, hd, hc⟩ := List.any_eq_true.mp h
  simp only [Bool.and_eq_true, decide_eq_true_eq] at hc
  refine Bool.eq_false_iff.mpr fun ha => ?_
  have hn := toNat_of_isAlpha ha
  have hd := hz d hd
  omega

theorem lower_of_not_isAlpha (h : ∀ c ∈ t, c.isAlpha = false) : lower t = t :=
  (List.map_congr_left fun c hc => toLower_of_not_isAlpha (h c hc)).trans (List.map_id t)

theorem lower_of_digits (h : t.all isDecimalDigit = true) : lower t = t :=
  lower_of_not_isAlpha fun c hc => not_isAlpha_of_isDecimalDigit (List.all_eq_true.mp h c hc)

@[simp] theorem lower_lower (t : Text) : lower (lower t) = lower t := by
  simp [lower]

theorem eq_of_lower_eq (h : lower s = t) (ht : ∀ c ∈ t, c.isAlpha = false) : s = t := by
  subst h
  refine ((List.map_congr_left fun c hc => ?_).trans (List.map_id s)).symm
  exact eq_of_not_isAlpha_toLower (ht _ (List.mem_map_of_mem hc))

theorem all_isDigit_lower (t : Text) : (lower t).all Char.isDigit = t.all Char.isDigit := by
  simp [lower, List.all_map, Function.comp_def, isDigit_toLower]

theorem trimStart_lower (t : Text) : (lower t).trimStart = lower t.trimStart := by
  simp [lower, trimStart, List.dropWhile_map, Function.comp_def, isBlank_toLower]

theorem trim_lower (t : Text) : (lower t).trim = lower t.trim := by
  have hend (u : Text) : (lower u).trimEnd = lower u.trimEnd := by
    rw [trimEnd, ← trimStart, lower, ← List.map_reverse, ← lower, trimStart_lower, trimEnd,
      ← trimStart, lower, lower, List.map_reverse]
  rw [trim, trimStart_lower, hend, trim]

end Mediation.Text
