import Mediation.Proofs.Text.Letters
import Mediation.Proofs.Text.Trim
import Mediation.Settings.Value

/-! # Durations are exact

A duration is a number, which may have a unit behind it with blanks between the two. It is read as
exactly that many seconds if they fit 64 bits, and not at all otherwise. Letters of units are no
digits, so a text says in one way whether it has a unit; and a number has no blank at either end, so
trimming takes what stands between it and its unit.
-/

namespace Mediation

namespace Duration

variable {t number gap : Text} {c : Char} {n seconds : ℕ}

/-- Texts of one or more digits, perhaps with a plus sign in front, and their numbers. -/
inductive Counts : Text → ℕ → Prop
  | digits {t : Text} (nonempty : t ≠ []) (digits : ∀ c ∈ t, c.isDigit = true) :
      Counts t (Text.value t)
  | plus {t : Text} (nonempty : t ≠ []) (digits : ∀ c ∈ t, c.isDigit = true) :
      Counts ('+' :: t) (Text.value t)

/-- The letters of the units, and the seconds of each of them. -/
inductive IsUnit : Char → ℕ → Prop
  | second : IsUnit 's' 1
  | minute : IsUnit 'm' 60
  | hour : IsUnit 'h' 3600

/-- Texts of durations, and how many seconds each of them stands for. -/
inductive Denotes : Text → ℕ → Prop
  | plain {number : Text} {n : ℕ} (counts : Counts number n) : Denotes number n
  | unit {number gap : Text} {c : Char} {n seconds : ℕ} (counts : Counts number n)
      (blank : ∀ b ∈ gap, Text.isBlank b = true) (unit : IsUnit c seconds) :
      Denotes (number ++ gap ++ [c]) (n * seconds)

theorem counts_iff : Counts t n ↔
    Text.isNumeric (Text.dropPlus t) = true ∧ Text.value (Text.dropPlus t) = n := by
  rw [Text.isNumeric_iff]
  constructor
  · rintro (⟨hne, hdigits⟩ | ⟨hne, hdigits⟩)
    · have hplus : Text.dropPlus t = t :=
        Text.dropPlus_of_digits (Text.all_isDecimalDigit (List.all_eq_true.mpr hdigits))
      rw [hplus]
      exact ⟨⟨hne, hdigits⟩, rfl⟩
    · exact ⟨⟨hne, hdigits⟩, rfl⟩
  · rintro ⟨⟨hne, hdigits⟩, rfl⟩
    have hsign : t = '+' :: Text.dropPlus t ∨ t = Text.dropPlus t := by
      unfold Text.dropPlus
      split <;> simp
    generalize Text.dropPlus t = digits at hne hdigits hsign ⊢
    rcases hsign with rfl | rfl
    · exact .plus hne hdigits
    · exact .digits hne hdigits

theorem readBelow_iff {bound : ℕ} : Text.readBelow bound t = some n ↔ Counts t n ∧ n < bound := by
  rw [Text.readBelow_eq_some_iff, counts_iff, and_assoc]

/-- A number begins with a sign or a digit and ends in a digit. -/
theorem Counts.ends (h : Counts t n) : ∃ c d, t.head? = some c ∧ t.getLast? = some d ∧
    Text.isBlank c = false ∧ d.isDigit = true := by
  cases h with
  | digits hne hdigits =>
    refine ⟨_, _, List.head?_eq_some_head hne, List.getLast?_eq_some_getLast hne, ?_, ?_⟩
    · exact Text.not_isBlank_of_isDigit (hdigits _ (List.head_mem hne))
    · exact hdigits _ (List.getLast_mem hne)
  | @plus t hne hdigits =>
    refine ⟨'+', t.getLast hne, rfl, ?_, by decide, hdigits _ (List.getLast_mem hne)⟩
    simp [List.getLast?_cons, List.getLast?_eq_some_getLast hne]

theorem Counts.isTight (h : Counts t n) : t.IsTight := by
  obtain ⟨c, d, hc, hd, hblank, hdigit⟩ := h.ends
  exact .of_ends hc hd hblank (Text.not_isBlank_of_isDigit hdigit)

theorem lookup_units_iff : units.lookup c = some seconds ↔ IsUnit c seconds := by
  constructor
  · intro h
    obtain ⟨before, behind, hsplit, -⟩ := List.lookup_eq_some_iff.mp h
    have hmem : (c, seconds) ∈ units := by simp [hsplit]
    simp only [units, List.mem_cons, Prod.mk.injEq, List.not_mem_nil, or_false] at hmem
    rcases hmem with ⟨rfl, rfl⟩ | ⟨rfl, rfl⟩ | ⟨rfl, rfl⟩
    · exact .second
    · exact .minute
    · exact .hour
  · rintro (_ | _ | _) <;> rfl

theorem IsUnit.not_isDigit (h : IsUnit c seconds) : c.isDigit = false := by
  cases h <;> rfl

theorem IsUnit.pos (h : IsUnit c seconds) : 0 < seconds := by
  cases h <;> decide

theorem IsUnit.unique {seconds' : ℕ} (h : IsUnit c seconds) (h' : IsUnit c seconds') :
    seconds' = seconds := by
  cases h <;> cases h' <;> rfl

/-- A text has the letter of a unit at its end or it has none. -/
theorem isUnit_last_or (t : Text) : (∃ s c seconds, t = s ++ [c] ∧ IsUnit c seconds) ∨
    ∀ c ∈ t.getLast?, ∀ seconds, ¬ IsUnit c seconds := by
  by_cases h : ∃ c ∈ t.getLast?, ∃ seconds, IsUnit c seconds
  · obtain ⟨c, hc, seconds, hunit⟩ := h
    obtain ⟨s, rfl⟩ := List.getLast?_eq_some_iff.mp hc
    exact .inl ⟨s, c, seconds, rfl, hunit⟩
  · simp only [not_exists, not_and] at h
    exact .inr h

theorem cutUnit_concat (h : IsUnit c seconds) : cutUnit (t ++ [c]) = (t, seconds) := by
  simp [cutUnit, lookup_units_iff.mpr h]

theorem cutUnit_of_not_isUnit (h : ∀ c ∈ t.getLast?, ∀ seconds, ¬ IsUnit c seconds) :
    cutUnit t = (t, 1) := by
  cases hlast : t.getLast? with
  | none => simp [cutUnit, hlast]
  | some c =>
    have hnone : units.lookup c = none := by
      rw [Option.eq_none_iff_forall_ne_some]
      intro seconds hlookup
      exact h c hlast seconds (lookup_units_iff.mp hlookup)
    simp [cutUnit, hlast, hnone]

theorem seconds?_of_cutUnit (hcut : cutUnit (Text.lower t.trim) = (number, seconds))
    (hpos : 0 < seconds) :
    seconds? t = some n ↔ (∃ k, Counts number.trim k ∧ n = k * seconds) ∧ n < Text.word64 := by
  simp only [seconds?, hcut, Option.bind_eq_bind, Option.bind_eq_some_iff, readBelow_iff,
    Option.guard_eq_some', Option.pure_def, Option.some.injEq]
  constructor
  · rintro ⟨k, ⟨hk, -⟩, -, hfits, rfl⟩
    exact ⟨⟨k, hk, rfl⟩, hfits⟩
  · rintro ⟨⟨k, hk, rfl⟩, hfits⟩
    have hle : k ≤ k * seconds := Nat.le_mul_of_pos_right k hpos
    exact ⟨k, ⟨hk, by omega⟩, (), hfits, rfl⟩

theorem Counts.trim_append (h : Counts t n) (hblank : ∀ b ∈ gap, Text.isBlank b = true) :
    (t ++ gap).trim = t := by
  have hne : t ≠ [] := by
    obtain ⟨c, -, hc, -⟩ := h.ends
    rintro rfl
    cases hc
  rw [Text.trim_append hne h.isTight.head hblank, Text.trimEnd_eq_self h.isTight.last]

/-- A text with the letter of a unit at its end is a duration if the rest of it is a number and
blanks behind it. -/
theorem denotes_concat (hs : ∀ b ∈ t.head?, Text.isBlank b = false) (h : IsUnit c seconds) :
    Denotes (t ++ [c]) n ↔ ∃ k, Counts t.trim k ∧ n = k * seconds := by
  constructor
  · generalize hu : t ++ [c] = u
    rintro (hcounts | ⟨hcounts, hblank, hunit⟩)
    · obtain ⟨-, d, -, hd, -, hdigit⟩ := hcounts.ends
      obtain rfl : c = d := by simpa [← hu] using hd
      simp [h.not_isDigit] at hdigit
    · obtain ⟨rfl, hc⟩ := List.append_inj' hu rfl
      obtain rfl := List.singleton_inj.mp hc
      refine ⟨_, ?_, congrArg _ (h.unique hunit)⟩
      rwa [hcounts.trim_append hblank]
  · rintro ⟨k, hk, rfl⟩
    obtain ⟨gap, hgap, ht⟩ := Text.exists_eq_trim_append hs
    rw [ht]
    exact .unit hk hgap h

theorem denotes_of_not_isUnit (h : ∀ c ∈ t.getLast?, ∀ seconds, ¬ IsUnit c seconds) :
    Denotes t n ↔ Counts t n := by
  constructor
  · rintro (hcounts | ⟨-, -, hunit⟩)
    · exact hcounts
    · exact absurd hunit (h _ (by simp) _)
  · exact .plain

/-- A duration is read as the seconds that it stands for, if they fit 64 bits. -/
theorem seconds?_eq_some_iff :
    seconds? t = some n ↔ Denotes (Text.lower t.trim) n ∧ n < Text.word64 := by
  have htight : (Text.lower t.trim).IsTight := by
    rw [← Text.trim_lower]
    exact Text.isTight_trim _
  rcases isUnit_last_or (Text.lower t.trim) with ⟨s, c, seconds, ht, hunit⟩ | hnone
  · rw [ht] at htight
    have hhead : ∀ b ∈ s.head?, Text.isBlank b = false := by
      intro b hb
      apply htight.head
      simp_all
    rw [seconds?_of_cutUnit (ht ▸ cutUnit_concat hunit) hunit.pos, ht, denotes_concat hhead hunit]
  · rw [seconds?_of_cutUnit (cutUnit_of_not_isUnit hnone) Nat.one_pos, htight.trim_eq,
      denotes_of_not_isUnit hnone]
    simp

end Duration

/-- A duration is read exactly if the text, without blanks around it and in lower case, is a number
that may have a unit behind it, and the seconds that it stands for fit 64 bits. It is read as these
seconds; every other text is an invalid value of the setting. -/
theorem Setting.readDuration_exact (key t : Text) :
    (∀ n, readDuration key t = .ok n ↔
      Duration.Denotes (Text.lower t.trim) n ∧ n ≤ 2 ^ 64 - 1) ∧
    (readDuration key t = .error (.invalidValue key t .duration) ↔
      ∀ n, ¬ (Duration.Denotes (Text.lower t.trim) n ∧ n ≤ 2 ^ 64 - 1)) := by
  have hseconds (n : ℕ) : Duration.seconds? t = some n ↔
      Duration.Denotes (Text.lower t.trim) n ∧ n ≤ 2 ^ 64 - 1 := by
    have hfits : n < Text.word64 ↔ n ≤ 2 ^ 64 - 1 := by
      simp only [Text.word64]
      omega
    rw [Duration.seconds?_eq_some_iff, hfits]
  simp only [← hseconds, readDuration]
  cases Duration.seconds? t with
  | none => simp [orInvalid]
  | some n => simp [orInvalid]

example : Setting.readDuration "MAESTRO_FETCH_TIMEOUT" " +05 M" = .ok 300 := by decide

end Mediation
