import Mathlib.Algebra.Group.Nat.Defs
import Mathlib.Data.List.Induction
import Mediation.Text.Decimal
import Mediation.Text.DecimalDigit

/-! # Texts of digits

The text of a number consists of digits that stand for it, also when it is filled up with zeros. A
text of digits behind another one stands for the last places of the number of both.
-/

namespace Mediation.Text

variable {width n : ℕ}

theorem ofNat_ne_nil (n : ℕ) : ofNat n ≠ [] := Nat.toDigits_ne_nil

theorem all_isDigit_ofNat (n : ℕ) : (ofNat n).all Char.isDigit = true :=
  List.all_eq_true.mpr fun _ hc => Nat.isDigit_of_mem_toDigits (by decide) (by decide) hc

theorem all_isDigit_padded (width n : ℕ) : (padded width n).all Char.isDigit = true := by
  have hz : (List.replicate (width - (ofNat n).length) '0').all Char.isDigit = true :=
    List.all_eq_true.mpr fun _ hc => List.eq_of_mem_replicate hc ▸ rfl
  rw [padded, List.all_append, hz, all_isDigit_ofNat, Bool.and_self]

theorem length_padded (hw : 0 < width) (h : n < 10 ^ width) : (padded width n).length = width := by
  have hle : (ofNat n).length ≤ width :=
    (Nat.length_toDigits_le_iff (by decide) hw).mpr h
  rw [padded, List.length_append, List.length_replicate, Nat.sub_add_cancel hle]

theorem value_append (s t : Text) : value (s ++ t) = 10 ^ t.length * value s + value t := by
  rw [value, Nat.ofDigitChars_append, Nat.ofDigitChars_eq_ofDigitChars_zero]
  rfl

@[simp] theorem value_padded (width n : ℕ) : value (padded width n) = n := by
  have hz : value (List.replicate (width - (ofNat n).length) '0') = 0 := by
    rw [value, Nat.ofDigitChars_replicate_zero, Nat.mul_zero]
  rw [padded, value_append, hz, Nat.mul_zero, Nat.zero_add, value_ofNat]

theorem exists_getLast?_ofNat (s : Text) (n : ℕ) :
    ∃ d, (s ++ '-' :: ofNat n).getLast? = some d ∧ d.isDigit = true := by
  have hne := ofNat_ne_nil n
  refine ⟨(ofNat n).getLast hne, ?_, ?_⟩
  · rw [List.getLast?_append, List.getLast?_cons, List.getLast?_eq_some_getLast hne]
    rfl
  · exact List.all_eq_true.mp (all_isDigit_ofNat n) _ (List.getLast_mem hne)

theorem ofNat_of_append {s t : Text} {m n : ℕ}
    (h : s ++ '-' :: ofNat m = t ++ '-' :: ofNat n) : m = n := by
  have hdigits : ∀ (u : Text) (k : ℕ),
      (u ++ '-' :: ofNat k).reverse.takeWhile Char.isDigit = (ofNat k).reverse := by
    intro u k
    have hall : ∀ c ∈ (ofNat k).reverse, c.isDigit = true := fun c hc =>
      List.all_eq_true.mp (all_isDigit_ofNat k) c (List.mem_reverse.mp hc)
    have hdash : ¬ '-'.isDigit = true := by decide
    rw [List.reverse_append, List.reverse_cons, List.append_assoc,
      List.takeWhile_append_of_pos hall, List.singleton_append, List.takeWhile_cons_of_neg hdash,
      List.append_nil]
  have heq := hdigits s m
  rw [h, hdigits t n] at heq
  rw [← value_ofNat m, ← value_ofNat n, List.reverse_inj.mp heq]

theorem toNat_of_isDigit {c : Char} (h : c.isDigit = true) : 48 ≤ c.toNat ∧ c.toNat ≤ 57 := by
  simpa [Char.isDigit, UInt32.le_iff_toNat_le] using h

theorem isDecimalDigit_of_isDigit {c : Char} (h : c.isDigit = true) : isDecimalDigit c = true := by
  obtain ⟨hlow, hhigh⟩ := toNat_of_isDigit h
  refine List.any_eq_true.mpr ⟨0x30, by decide, ?_⟩
  simp only [Bool.and_eq_true, decide_eq_true_eq]
  omega

theorem toLower_of_isDigit {c : Char} (h : c.isDigit = true) : c.toLower = c := by
  obtain ⟨-, hhigh⟩ := toNat_of_isDigit h
  refine dif_neg fun hupper => ?_
  have hge : 65 ≤ c.toNat := UInt32.le_iff_toNat_le.mp hupper.1
  omega

theorem digitChar_toNat {c : Char} (h : c.isDigit = true) : (c.toNat - 48).digitChar = c := by
  have hcodes : ∀ k < 10, (Nat.digitChar k).toNat = k + 48 := by decide
  obtain ⟨hlow, hhigh⟩ := toNat_of_isDigit h
  refine Char.toNat_inj.mp ?_
  rw [hcodes _ (by omega)]
  omega

theorem all_isDecimalDigit {t : Text} (h : t.all Char.isDigit = true) :
    t.all isDecimalDigit = true :=
  List.all_eq_true.mpr fun _ hc => isDecimalDigit_of_isDigit (List.all_eq_true.mp h _ hc)

theorem isNumeric_iff {t : Text} : isNumeric t = true ↔ t ≠ [] ∧ ∀ c ∈ t, c.isDigit = true := by
  simp [isNumeric]

theorem value_singleton (c : Char) : value [c] = c.toNat - 48 := by
  simp [value, Nat.ofDigitChars_cons]

theorem ofNat_value {t : Text} (hne : t ≠ []) (hd : t.all Char.isDigit = true)
    (hz : t.head? ≠ some '0') : 0 < value t ∧ ofNat (value t) = t := by
  induction t using List.reverseRecOn with
  | nil => exact absurd rfl hne
  | append_singleton t c ih =>
    simp only [List.all_append, List.all_cons, List.all_nil, Bool.and_true, Bool.and_eq_true] at hd
    obtain ⟨hlow, hhigh⟩ := toNat_of_isDigit hd.2
    have hc : ofNat (value [c]) = [c] := by
      rw [ofNat, value_singleton, Nat.toDigits_of_lt_base (by omega), digitChar_toNat hd.2]
    cases t with
    | nil =>
      have hne : c.toNat ≠ 48 := fun h => hz (congrArg some (Char.toNat_inj.mp h))
      refine ⟨?_, hc⟩
      rw [List.nil_append, value_singleton]
      omega
    | cons d t =>
      -- what precedes the last digit has the same leading digit
      obtain ⟨hpos, ht⟩ := ih (List.cons_ne_nil d t) hd.1 hz
      have hv : value (d :: t ++ [c]) = 10 * value (d :: t) + value [c] := value_append (d :: t) [c]
      have hlt : value [c] < 10 := by rw [value_singleton]; omega
      refine ⟨by omega, ?_⟩
      rw [hv, ofNat, ← Nat.toDigits_append_toDigits (by decide) hpos hlt]
      exact congrArg₂ (· ++ ·) ht hc

theorem readBelow_eq_some_iff {bound n : ℕ} {t : Text} : readBelow bound t = some n ↔
    isNumeric (dropPlus t) = true ∧ value (dropPlus t) = n ∧ n < bound := by
  simp only [readBelow, Bool.and_eq_true, decide_eq_true_eq, Option.ite_none_right_eq_some,
    Option.some.injEq]
  constructor
  · rintro ⟨⟨hn, hlt⟩, rfl⟩
    exact ⟨hn, rfl, hlt⟩
  · rintro ⟨hn, rfl, hlt⟩
    exact ⟨⟨hn, hlt⟩, rfl⟩

theorem dropPlus_of_digits {t : Text} (h : t.all isDecimalDigit = true) : dropPlus t = t := by
  have hplus : isDecimalDigit '+' = false := by decide
  unfold dropPlus
  split
  · simp [hplus] at h
  · rfl

end Mediation.Text
