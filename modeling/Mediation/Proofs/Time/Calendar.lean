import Mathlib.Data.Int.Notation
import Mathlib.Order.Nat
import Mediation.Proofs.Text.Digits
import Mediation.Time.Moment

/-! # The calendar keeps the order of days

The digits of a date, read as one number, grow from day to day. Years are counted from the first of
March, in cycles of 400: the year of a cycle grows with the day, a day falls at most 365 days after
the first day of its year, and months and days follow from there. So the stamps of moments, whose
years have four digits, are ordered as the moments are.
-/

namespace Mediation

namespace Date

def yearOf (n : ℕ) : ℕ := (n - n / 1460 + n / 36524 - n / 146096) / 365

def daysBefore (y : ℕ) : ℕ := 365 * y + y / 4 - y / 100

/-- The day of its year, counted from zero, that a day of a cycle is. -/
def dayOf (n : ℕ) : ℕ := n - daysBefore (yearOf n)

def monthOf (n : ℕ) : ℕ := (5 * n + 2) / 153

def daysBeforeMonth (m : ℕ) : ℕ := (153 * m + 2) / 5

variable {m n : ℕ} {e : ℤ}

theorem yearOf_mono (hmn : m ≤ n) (hn : n < 146097) : yearOf m ≤ yearOf n := by
  unfold yearOf
  apply Nat.div_le_div_right
  omega

theorem yearOf_lt (hn : n < 146097) : yearOf n < 400 :=
  Nat.lt_of_le_of_lt (yearOf_mono (Nat.le_of_lt_succ hn) (by decide)) (by decide)

theorem yearOf_daysBefore_pred :
    ∀ y < 400, 0 < y → yearOf (daysBefore y - 1) < y := by
  decide +kernel

/-- A year later than the first day of a year another one has begun. -/
theorem lt_yearOf_daysBefore_add : ∀ y < 399, y < yearOf (daysBefore y + 366) := by
  decide +kernel

theorem daysBefore_yearOf_le (hn : n < 146097) : daysBefore (yearOf n) ≤ n := by
  by_contra hlt
  have hpos : 0 < yearOf n := by
    refine Nat.pos_of_ne_zero fun hz => hlt ?_
    rw [hz]
    exact Nat.zero_le n
  have hmono : yearOf n ≤ yearOf (daysBefore (yearOf n) - 1) := by
    have := yearOf_lt hn
    refine yearOf_mono (by omega) ?_
    unfold daysBefore
    omega
  have := yearOf_daysBefore_pred (yearOf n) (yearOf_lt hn) hpos
  omega

theorem dayOf_le (hn : n < 146097) : dayOf n ≤ 365 := by
  unfold dayOf
  by_contra hlt
  have hy : yearOf n < 399 := by
    refine Nat.lt_of_le_of_ne (Nat.le_of_lt_succ (yearOf_lt hn)) fun he => ?_
    rw [he, show daysBefore 399 = 145731 from rfl] at hlt
    omega
  have hmono : yearOf (daysBefore (yearOf n) + 366) ≤ yearOf n := yearOf_mono (by omega) hn
  have := lt_yearOf_daysBefore_add (yearOf n) hy
  omega

theorem monthOf_mono (hmn : m ≤ n) : monthOf m ≤ monthOf n :=
  Nat.div_le_div_right (by omega)

theorem monthOf_lt (hn : n ≤ 365) : monthOf n < 12 := by
  unfold monthOf
  omega

theorem daysBeforeMonth_monthOf_le (n : ℕ) : daysBeforeMonth (monthOf n) ≤ n := by
  unfold daysBeforeMonth monthOf
  omega

theorem sub_daysBeforeMonth_lt (n : ℕ) : n - daysBeforeMonth (monthOf n) < 31 := by
  unfold daysBeforeMonth monthOf
  omega

/-- The digits of a month of a year; its last two months belong to the next year of the calendar. -/
def monthNumber (m : ℕ) : ℕ := if m < 10 then m + 3 else m + 91

def numberOfYear (n : ℕ) : ℕ :=
  monthNumber (monthOf n) * 100 + (n - daysBeforeMonth (monthOf n) + 1)

/-- The digits of a day of a cycle, whose years are counted from zero. -/
def numberOfCycle (n : ℕ) : ℕ := yearOf n * 10000 + numberOfYear (dayOf n)

theorem monthNumber_lt (h : m < n) : monthNumber m < monthNumber n := by
  unfold monthNumber
  split <;> split <;> omega

theorem numberOfYear_lt (h : m < n) : numberOfYear m < numberOfYear n := by
  have hm := sub_daysBeforeMonth_lt m
  have hle := daysBeforeMonth_monthOf_le m
  unfold numberOfYear
  rcases Nat.lt_or_eq_of_le (monthOf_mono h.le) with hlt | heq
  · have := monthNumber_lt hlt
    omega
  · rw [heq] at hm hle ⊢
    omega

theorem numberOfYear_bounds (hn : n ≤ 365) : 300 < numberOfYear n ∧ numberOfYear n < 10300 := by
  have hm := monthOf_lt hn
  have hd := sub_daysBeforeMonth_lt n
  unfold numberOfYear monthNumber
  split <;> omega

theorem numberOfCycle_lt (h : m < n) (hn : n < 146097) : numberOfCycle m < numberOfCycle n := by
  have hm := h.trans hn
  unfold numberOfCycle
  rcases Nat.lt_or_eq_of_le (yearOf_mono h.le hn) with hlt | heq
  · have := (numberOfYear_bounds (dayOf_le hm)).2
    have := (numberOfYear_bounds (dayOf_le hn)).1
    omega
  · have hd : dayOf m < dayOf n := by
      have := daysBefore_yearOf_le hm
      unfold dayOf
      rw [heq] at this ⊢
      omega
    rw [heq]
    exact Nat.add_lt_add_left (numberOfYear_lt hd) _

theorem numberOfCycle_bounds (hn : n < 146097) :
    300 < numberOfCycle n ∧ numberOfCycle n < 4000300 := by
  have := yearOf_lt hn
  have := numberOfYear_bounds (dayOf_le hn)
  unfold numberOfCycle
  omega

def inCycle (cycle : ℤ) (n : ℕ) : Date :=
  let month := if monthOf (dayOf n) < 10 then monthOf (dayOf n) + 3 else monthOf (dayOf n) - 9
  ⟨cycle * 400 + yearOf n + (if month ≤ 2 then 1 else 0), month,
    dayOf n - daysBeforeMonth (monthOf (dayOf n)) + 1⟩

theorem ofDay_eq (day : ℤ) :
    ofDay day = inCycle ((day + 719468) / 146097) ((day + 719468) % 146097).toNat := rfl

theorem month_ofDay_lt (day : ℤ) : (ofDay day).month < 100 := by
  rw [ofDay_eq]
  have hm := monthOf_lt (dayOf_le (n := ((day + 719468) % 146097).toNat) (by omega))
  unfold inCycle
  dsimp only
  split <;> omega

theorem day_ofDay_lt (day : ℤ) : (ofDay day).day < 100 := by
  have hd := sub_daysBeforeMonth_lt (dayOf ((day + 719468) % 146097).toNat)
  rw [ofDay_eq]
  unfold inCycle
  dsimp only
  omega

def number (d : Date) : ℤ := d.year * 10000 + d.month * 100 + d.day

theorem number_inCycle (cycle : ℤ) (hn : n < 146097) :
    (inCycle cycle n).number = cycle * 4000000 + numberOfCycle n := by
  have hm := monthOf_lt (dayOf_le hn)
  unfold number inCycle numberOfCycle numberOfYear monthNumber
  dsimp only
  by_cases h : monthOf (dayOf n) < 10
  · rw [if_pos h, if_pos h, if_neg (by omega)]
    omega
  · rw [if_neg h, if_neg h, if_pos (by omega)]
    omega

theorem number_ofDay_lt {d : ℤ} (h : d < e) : (ofDay d).number < (ofDay e).number := by
  have hd : ((d + 719468) % 146097).toNat < 146097 := by omega
  have he : ((e + 719468) % 146097).toNat < 146097 := by omega
  rw [ofDay_eq, ofDay_eq, number_inCycle _ hd, number_inCycle _ he]
  by_cases hc : (d + 719468) / 146097 = (e + 719468) / 146097
  · have := numberOfCycle_lt (m := ((d + 719468) % 146097).toNat) (by omega) he
    omega
  · have := (numberOfCycle_bounds hd).2
    have := (numberOfCycle_bounds he).1
    omega

def HasFourDigitYear (d : Date) : Prop := 0 ≤ d.year ∧ d.year ≤ 9999

instance (d : Date) : Decidable d.HasFourDigitYear :=
  inferInstanceAs (Decidable (0 ≤ d.year ∧ d.year ≤ 9999))

variable {d : Date}

theorem yearText_eq (h : d.HasFourDigitYear) : yearText d.year = Text.padded 4 d.year.toNat :=
  if_pos (Bool.and_eq_true_iff.mpr ⟨decide_eq_true h.1, decide_eq_true h.2⟩)

theorem all_isDigit_text (h : d.HasFourDigitYear) : d.text.all Char.isDigit = true := by
  rw [text, yearText_eq h, List.all_append, List.all_append, Text.all_isDigit_padded,
    Text.all_isDigit_padded, Text.all_isDigit_padded, Bool.and_self, Bool.and_self]

theorem length_text (h : (ofDay e).HasFourDigitYear) : (ofDay e).text.length = 8 := by
  have hy : (ofDay e).year.toNat < 10 ^ 4 := by
    have := h.2
    omega
  rw [text, yearText_eq h, List.length_append, List.length_append,
    Text.length_padded (by decide) hy, Text.length_padded (by decide) (month_ofDay_lt e),
    Text.length_padded (by decide) (day_ofDay_lt e)]

theorem value_text (h : (ofDay e).HasFourDigitYear) :
    (Text.value (ofDay e).text : ℤ) = (ofDay e).number := by
  have := h.1
  rw [text, yearText_eq h, Text.value_append, Text.value_append, Text.value_padded,
    Text.value_padded, Text.value_padded, Text.length_padded (by decide) (day_ofDay_lt e),
    Text.length_padded (by decide) (month_ofDay_lt e)]
  unfold number
  omega

end Date

namespace Moment

variable {m n : Moment}

theorem secondOfDay_lt (m : Moment) : secondOfDay m < 86400 := by
  unfold secondOfDay dayLength
  omega

theorem secondOfDay_le {a b : ℤ} (h : a ≤ b) (hd : day a = day b) :
    secondOfDay a ≤ secondOfDay b := by
  unfold day dayLength at hd
  unfold secondOfDay dayLength
  omega

theorem all_isDigit_clockText (m : Moment) : (clockText m).all Char.isDigit = true := by
  rw [clockText, List.all_append, List.all_append, Text.all_isDigit_padded,
    Text.all_isDigit_padded, Text.all_isDigit_padded, Bool.and_self, Bool.and_self]

theorem length_clockText (m : Moment) : (clockText m).length = 6 := by
  have := secondOfDay_lt m
  rw [clockText, List.length_append, List.length_append, Text.length_padded (by decide) (by omega),
    Text.length_padded (by decide) (by omega), Text.length_padded (by decide) (by omega)]

theorem value_clockText (m : Moment) : Text.value (clockText m) =
    secondOfDay m / 3600 * 10000 + secondOfDay m / 60 % 60 * 100 + secondOfDay m % 60 := by
  rw [clockText, Text.value_append, Text.value_append, Text.value_padded, Text.value_padded,
    Text.value_padded, Text.length_padded (by decide) (by omega),
    Text.length_padded (by decide) (by omega)]
  omega

/-- A later moment has the greater day or, on the same day, no smaller time. -/
theorem value_le_of_le (hm : m.date.HasFourDigitYear) (hn : n.date.HasFourDigitYear) (h : m ≤ n) :
    Text.value m.date.text < Text.value n.date.text ∨
    Text.value m.date.text = Text.value n.date.text ∧
      Text.value m.clockText ≤ Text.value n.clockText := by
  rcases Int.lt_or_eq_of_le (show day m ≤ day n from Int.ediv_le_ediv (by decide) h) with hlt | heq
  · have := Date.value_text hm
    have := Date.value_text hn
    have := Date.number_ofDay_lt hlt
    left
    unfold date
    omega
  · refine .inr ⟨by rw [date, date, heq], ?_⟩
    have hs : secondOfDay m ≤ secondOfDay n := secondOfDay_le h heq
    have hm : secondOfDay m / 60 / 60 = secondOfDay m / 3600 := Nat.div_div_eq_div_mul ..
    have hn : secondOfDay n / 60 / 60 = secondOfDay n / 3600 := Nat.div_div_eq_div_mul ..
    rw [value_clockText, value_clockText]
    omega

end Moment

end Mediation
