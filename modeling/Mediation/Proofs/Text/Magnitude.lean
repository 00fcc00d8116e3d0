import Mathlib.Data.List.TakeWhile
import Mathlib.Tactic.Ring
import Mediation.Proofs.Text.Digits

/-! # The size of digits

Numbers of any size are compared by their digits alone. Of two texts without leading zeros the
longer one is the greater number, and texts of one length compare as their numbers do.
-/

namespace Mediation.Text

variable {c : Char} {s t : Text}

def significant (t : Text) : Text := t.dropWhile (· == '0')

def compareDigits (s t : Text) : Ordering :=
  (Ord.compare s.significant.length t.significant.length).then
    (Ord.compare s.significant t.significant)

theorem value_cons (c : Char) (t : Text) :
    value (c :: t) = 10 ^ t.length * (c.toNat - 48) + value t := by
  rw [← value_singleton, ← value_append, List.singleton_append]

theorem value_lt (h : t.all Char.isDigit = true) : value t < 10 ^ t.length := by
  induction t with
  | nil => decide
  | cons c t ih =>
    rw [List.all_cons, Bool.and_eq_true] at h
    have hc := toNat_of_isDigit h.1
    have ht := ih h.2
    calc value (c :: t)
        = 10 ^ t.length * (c.toNat - 48) + value t := value_cons c t
      _ < 10 ^ t.length * (c.toNat - 48) + 10 ^ t.length := Nat.add_lt_add_left ht _
      _ = 10 ^ t.length * (c.toNat - 48 + 1) := by ring
      _ ≤ 10 ^ t.length * 10 := Nat.mul_le_mul_left _ (by omega)
      _ = 10 ^ (c :: t).length := (pow_succ 10 t.length).symm

theorem value_significant (t : Text) : value t.significant = value t := by
  have hzeros : ∀ c ∈ t.takeWhile (· == '0'), c = '0' := by
    intro c hc
    simpa using List.mem_takeWhile_imp hc
  have hsplit : t.takeWhile (· == '0') ++ t.significant = t := List.takeWhile_append_dropWhile
  have hnone : value (t.takeWhile (· == '0')) = 0 := by
    rw [List.eq_replicate_of_mem hzeros, value, Nat.ofDigitChars_replicate_zero, Nat.mul_zero]
  rw [← congrArg value hsplit, value_append, hnone, Nat.mul_zero, Nat.zero_add]

theorem all_isDigit_significant (h : t.all Char.isDigit = true) :
    t.significant.all Char.isDigit = true := by
  rw [List.all_eq_true] at h ⊢
  exact fun c hc => h c ((List.dropWhile_suffix _).subset hc)

theorem head?_significant (t : Text) : t.significant.head? ≠ some '0' := by
  intro h
  have hn := List.head?_dropWhile_not (· == '0') t
  rw [← significant, h] at hn
  simp at hn

theorem pow_le_value (hd : (c :: t).all Char.isDigit = true) (hz : c ≠ '0') :
    10 ^ t.length ≤ value (c :: t) := by
  have hc := toNat_of_isDigit (Bool.and_eq_true_iff.mp hd).1
  have hne : c.toNat ≠ 48 := fun h => hz (Char.toNat_inj.mp h)
  calc 10 ^ t.length
      ≤ 10 ^ t.length * (c.toNat - 48) := Nat.le_mul_of_pos_right _ (by omega)
    _ ≤ 10 ^ t.length * (c.toNat - 48) + value t := Nat.le_add_right _ _
    _ = value (c :: t) := (value_cons c t).symm

theorem value_lt_of_length_lt (hs : s.all Char.isDigit = true) (ht : t.all Char.isDigit = true)
    (hz : t.head? ≠ some '0') (h : s.length < t.length) : value s < value t := by
  cases t with
  | nil => exact absurd h (Nat.not_lt_zero _)
  | cons c t =>
    calc value s
        < 10 ^ s.length := value_lt hs
      _ ≤ 10 ^ t.length := Nat.pow_le_pow_right (by decide) (Nat.le_of_lt_succ h)
      _ ≤ value (c :: t) := pow_le_value ht fun hc => hz (congrArg some hc)

theorem compare_eq_compare_toNat (c d : Char) : Ord.compare c d = Ord.compare c.toNat d.toNat := by
  have hlt : c < d ↔ c.toNat < d.toNat := by
    rw [Char.lt_def, UInt32.lt_iff_toNat_lt]
    rfl
  change compareOfLessAndEq c d = compareOfLessAndEq c.toNat d.toNat
  simp only [compareOfLessAndEq, hlt, Char.toNat_inj]

theorem compare_congr {a b m n : ℕ} (h : a < b ↔ m < n) (h' : b < a ↔ n < m) :
    Ord.compare a b = Ord.compare m n := by
  rw [Nat.compare_eq_ite_lt, Nat.compare_eq_ite_lt]
  simp only [h, h']

theorem compare_mul_add {n a b x y : ℕ} (hx : x < n) (hy : y < n) :
    Ord.compare (n * a + x) (n * b + y) = (Ord.compare a b).then (Ord.compare x y) := by
  have hlt {a b x y : ℕ} (hx : x < n) (hab : a < b) : n * a + x < n * b + y :=
    calc n * a + x
        < n * a + n := Nat.add_lt_add_left hx _
      _ = n * (a + 1) := rfl
      _ ≤ n * b := Nat.mul_le_mul_left n hab
      _ ≤ n * b + y := Nat.le_add_right _ _
  rcases Nat.lt_trichotomy a b with hab | rfl | hab
  · rw [Nat.compare_eq_lt.mpr (hlt hx hab), Nat.compare_eq_lt.mpr hab]
    rfl
  · rw [Nat.compare_eq_eq.mpr rfl]
    exact compare_congr Nat.add_lt_add_iff_left Nat.add_lt_add_iff_left
  · rw [Nat.compare_eq_gt.mpr (hlt hy hab), Nat.compare_eq_gt.mpr hab]
    rfl

theorem compare_value_of_length (hs : s.all Char.isDigit = true) (ht : t.all Char.isDigit = true)
    (h : s.length = t.length) : Ord.compare (value s) (value t) = Ord.compare s t := by
  induction s generalizing t with
  | nil =>
    obtain rfl := List.length_eq_zero_iff.mp h.symm
    rfl
  | cons c s ih =>
    cases t with
    | nil => cases h
    | cons d t =>
      have hlen : s.length = t.length := Nat.succ.inj h
      rw [List.all_cons, Bool.and_eq_true] at hs ht
      have hc := toNat_of_isDigit hs.1
      have hd := toNat_of_isDigit ht.1
      have hdigit : Ord.compare (c.toNat - 48) (d.toNat - 48) = Ord.compare c d := by
        rw [compare_eq_compare_toNat]
        exact compare_congr (by omega) (by omega)
      rw [value_cons, value_cons, hlen, compare_mul_add (hlen ▸ value_lt hs.2) (value_lt ht.2),
        hdigit, ih hs.2 ht.2 hlen, List.compare_cons_cons]

theorem compare_value (hs : s.all Char.isDigit = true) (ht : t.all Char.isDigit = true) :
    Ord.compare (value s) (value t) = compareDigits s t := by
  rw [← value_significant s, ← value_significant t, compareDigits]
  have hs := all_isDigit_significant hs
  have ht := all_isDigit_significant ht
  rcases Nat.lt_trichotomy s.significant.length t.significant.length with h | h | h
  · have hlt := value_lt_of_length_lt hs ht (head?_significant t) h
    rw [Nat.compare_eq_lt.mpr hlt, Nat.compare_eq_lt.mpr h]
    rfl
  · rw [Nat.compare_eq_eq.mpr h, compare_value_of_length hs ht h]
    rfl
  · have hgt := value_lt_of_length_lt ht hs (head?_significant s) h
    rw [Nat.compare_eq_gt.mpr hgt, Nat.compare_eq_gt.mpr h]
    rfl

end Mediation.Text
