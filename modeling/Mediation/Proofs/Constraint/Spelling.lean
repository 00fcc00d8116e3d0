import Mediation.Constraint.Reader
import Mediation.Proofs.Constraint.Selection
import Mediation.Proofs.Text.Trim

/-! # The spelling of intervals

An interval whose bounds can be spelt reads back from its written form. Two spellings of
one version around a single point leave only the first of them; this interval is the same
up to spelling and has the same written form. Intervals in ascending order read back as a
list.
-/

namespace Mediation

/-- Whether the text of a version can stand for a bound. -/
structure Version.IsSpellable (v : Version) : Prop where
  nonempty : v.text ≠ []
  tight : v.text.IsTight
  comma : ',' ∉ v.text
  closing : ∀ c ∈ v.text, closesInterval c = false

namespace Restriction

variable {r s : Restriction}

structure IsPrintable (r : Restriction) : Prop where
  lower : ∀ b ∈ r.lower, b.version.IsSpellable
  upper : ∀ b ∈ r.upper, b.version.IsSpellable
  ordered : r.isReversed = false
  point : ∀ low ∈ r.lower, ∀ high ∈ r.upper, low.version = high.version →
    low.inclusive = true ∧ high.inclusive = true

def reread (r : Restriction) : Restriction := if r.isPoint then ⟨r.lower, r.lower⟩ else r

def opening (r : Restriction) : Char := if r.lower.any (·.inclusive) then '[' else '('

def closing (r : Restriction) : Char := if r.upper.any (·.inclusive) then ']' else ')'

def inside (r : Restriction) : Text :=
  if r.isPoint then boundText r.lower else boundText r.lower ++ ',' :: boundText r.upper

theorem isPoint_iff : r.isPoint = true ↔ ∃ v w : Version, v.same w = true ∧
    r.lower = some ⟨v, true⟩ ∧ r.upper = some ⟨w, true⟩ := by
  obtain ⟨low, high⟩ := r
  constructor
  · intro h
    obtain _ | ⟨v, i⟩ := low
    · cases h
    · obtain _ | ⟨w, j⟩ := high
      · cases h
      · simp only [isPoint, Bool.and_eq_true] at h
        exact ⟨v, w, h.1.1, by simp [h.1.2], by simp [h.2]⟩
  · rintro ⟨v, w, h, rfl, rfl⟩
    simp [isPoint, h]

theorem text_of_not_isPoint (h : r.isPoint = false) :
    r.text = r.opening :: (boundText r.lower ++ ',' :: boundText r.upper ++ [r.closing]) := by
  simp only [text, h, Bool.false_eq_true, if_false, opening, closing]
  cases r.lower.any (·.inclusive) <;> cases r.upper.any (·.inclusive) <;> simp

theorem text_eq (r : Restriction) : r.text = r.opening :: (r.inside ++ [r.closing]) := by
  cases h : r.isPoint with
  | true =>
    obtain ⟨v, w, -, hl, hu⟩ := isPoint_iff.mp h
    simp [text, opening, closing, inside, h, hl, hu]
  | false => simp [text_of_not_isPoint h, inside, h]

theorem closesInterval_opening (r : Restriction) : closesInterval r.opening = false := by
  unfold opening
  split <;> rfl

theorem closesInterval_closing (r : Restriction) : closesInterval r.closing = true := by
  unfold closing
  split <;> rfl

theorem opensInterval_text (r : Restriction) : opensInterval r.text = true := by
  simp only [text_eq, opensInterval, opening, List.head?_cons, Option.any_some]
  split <;> rfl

theorem isTight_text (r : Restriction) : r.text.IsTight where
  head c hc := by
    rw [text_eq, List.head?_cons, Option.mem_some_iff] at hc
    subst hc
    unfold opening
    split <;> decide
  last c hc := by
    rw [text_eq, ← List.cons_append, List.getLast?_concat, Option.mem_some_iff] at hc
    subst hc
    unfold closing
    split <;> decide

theorem reread_of_isPoint (h : r.isPoint = true) : r.reread = ⟨r.lower, r.lower⟩ := if_pos h

theorem reread_of_not_isPoint (h : r.isPoint = false) : r.reread = r := by simp [reread, h]

theorem same_reread (r : Restriction) : r.same r.reread = true := by
  have hb (b : Option Bound) : sameBound b b = true := by
    cases b <;> simp [sameBound, Bound.same, Version.same_refl]
  cases h : r.isPoint with
  | true =>
    obtain ⟨v, w, hvw, hl, hu⟩ := isPoint_iff.mp h
    have hwv := Version.same_symm hvw
    simp [reread_of_isPoint h, same, hl, hu, sameBound, Bound.same, Version.same_refl, hwv]
  | false => simp [reread_of_not_isPoint h, same, hb]

theorem text_reread (r : Restriction) : r.reread.text = r.text := by
  cases h : r.isPoint with
  | true =>
    obtain ⟨v, w, -, hl, hu⟩ := isPoint_iff.mp h
    have hp : isPoint ⟨some ⟨v, true⟩, some ⟨v, true⟩⟩ = true := by
      simp [isPoint, Version.same_refl]
    rw [reread_of_isPoint h, text, text, if_pos h, hl, if_pos hp]
  | false => rw [reread_of_not_isPoint h]

section Bounds

variable {b : Option Bound} (h : ∀ c ∈ b, c.version.IsSpellable)
include h

theorem isTight_boundText : (boundText b).IsTight := by
  cases b with
  | none => exact .nil
  | some b => exact (h b rfl).tight

theorem not_mem_boundText : ',' ∉ boundText b := by
  cases b with
  | none => exact List.not_mem_nil
  | some b => exact (h b rfl).comma

theorem closesInterval_boundText : ∀ c ∈ boundText b, closesInterval c = false := by
  cases b with
  | none => nofun
  | some b => exact (h b rfl).closing

/-- The text of a bound is read as the bound, whatever the bracket if there is none. -/
theorem read_boundText : Bound.read (b.any (·.inclusive)) (boundText b) = b := by
  cases b with
  | none => rfl
  | some b => simp [Bound.read, boundText, (h b rfl).nonempty]

end Bounds

namespace IsPrintable

variable (h : r.IsPrintable)
include h

theorem isTight_inside : r.inside.IsTight := by
  unfold inside
  split
  · exact isTight_boundText h.lower
  · exact (isTight_boundText h.lower).append_cons (by decide) (isTight_boundText h.upper)

theorem closesInterval_inside : ∀ c ∈ r.inside, closesInterval c = false := by
  have hl := closesInterval_boundText h.lower
  have hu := closesInterval_boundText h.upper
  unfold inside
  split
  · exact hl
  · intro c hc
    rcases List.mem_append.mp hc with hc | hc
    · exact hl c hc
    · rcases List.mem_cons.mp hc with rfl | hc
      · rfl
      · exact hu c hc

/-- The two bounds of an interval that is more than a point are told apart by their texts. -/
theorem boundText_ne (hp : r.isPoint = false) (hne : boundText r.lower ≠ []) :
    boundText r.lower ≠ boundText r.upper := by
  intro he
  cases hl : r.lower with
  | none => exact hne (by rw [hl]; rfl)
  | some low =>
    cases hu : r.upper with
    | none => exact hne (by rw [he, hu]; rfl)
    | some high =>
      rw [hl, hu] at he
      have hv : low.version = high.version := by
        obtain ⟨⟨s⟩, i⟩ := low
        obtain ⟨⟨t⟩, j⟩ := high
        exact congrArg Version.mk he
      obtain ⟨hi, hj⟩ := h.point low hl high hu hv
      simp [isPoint, hl, hu, hv, Version.same_refl, hi, hj] at hp

/-- The written form of an interval is read as the interval it stands for. -/
theorem read_text : read r.text = .ok r.reread := by
  have hhead : r.text.head? = some r.opening := by rw [text_eq]; rfl
  have hlast : r.text.getLast? = some r.closing := by
    rw [text_eq, ← List.cons_append, List.getLast?_concat]
  have hinside : Text.trim (r.text.drop 1).dropLast = r.inside := by
    rw [text_eq, List.drop_one, List.tail_cons, List.dropLast_concat, h.isTight_inside.trim_eq]
  have hopen : (some r.opening == some '[') = r.lower.any (·.inclusive) := by
    unfold opening
    cases r.lower.any (·.inclusive) <;> rfl
  have hclose : (some r.closing == some ']') = r.upper.any (·.inclusive) := by
    unfold closing
    cases r.upper.any (·.inclusive) <;> rfl
  simp only [read, hhead, hlast, hinside, hopen, hclose]
  cases hp : r.isPoint with
  | true =>
    obtain ⟨v, w, -, hl, hu⟩ := isPoint_iff.mp hp
    have hv := h.lower ⟨v, true⟩ hl
    have hin : r.inside = v.text := by simp [inside, hp, hl, boundText]
    have hcut : Text.cutAt ',' v.text = none := Text.cutAt_eq_none_iff.mpr hv.comma
    simp [hin, hcut, hl, hu, hv.nonempty, reread_of_isPoint hp, exactly]
  | false =>
    have hcut : Text.cutAt ',' r.inside = some (boundText r.lower, boundText r.upper) := by
      rw [inside, hp]
      exact Text.cutAt_append_cons (not_mem_boundText h.lower)
    have hmany : (boundText r.upper).contains ',' = false := by
      simpa using not_mem_boundText h.upper
    have hone : (!(boundText r.lower).isEmpty && boundText r.lower == boundText r.upper) =
        false := by
      simpa using h.boundText_ne hp
    simp only [hcut, (isTight_boundText h.lower).trim_eq, (isTight_boundText h.upper).trim_eq,
      hmany, hone, read_boundText h.lower, read_boundText h.upper, h.ordered,
      reread_of_not_isPoint hp]
    rfl

end IsPrintable

end Restriction

end Mediation
