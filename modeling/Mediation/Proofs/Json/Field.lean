import Mathlib.Data.List.Basic
import Mediation.Proofs.Json.Rereading
import Mediation.Proofs.Text.Digits
import Mediation.Proofs.Text.Magnitude

/-! # Fields as JSON

What stands in the fields of a record: values that may be absent, lists and numbers. Each of them is
read as what was put there, and a reader accepts what is printed of it.
-/

namespace Mediation.Json

variable {α : Type} {form : α → Json} {read : Json → Option α}

theorem optional?_ofOption (hnull : ∀ a, form a ≠ null) (hread : ∀ a, read (form a) = some a)
    (o : Option α) : optional? read (ofOption form o) = some o := by
  cases o with
  | none => rfl
  | some a =>
    rw [ofOption, optional?]
    · rw [hread, Option.map_some]
    · exact hnull a

theorem list?_map {as : List α} (hread : ∀ a ∈ as, read (form a) = some a) :
    list? read (array (as.map form)) = some as := by
  simp only [list?, array?, Option.bind_eq_bind, Option.bind_some]
  induction as with
  | nil => rfl
  | cons a as ih => simp_all

theorem text?_ofOption (t : Option Text) : optional? text? (ofOption string t) = some t :=
  optional?_ofOption (by simp) (by simp [text?]) t

theorem texts?_ofTexts (ts : List Text) : texts? (ofTexts ts) = some ts :=
  list?_map fun _ _ => rfl

theorem natBelow?_ofNat {bound n : Nat} (h : n < bound) : natBelow? bound (ofNat n) = some n := by
  have hdigits : Text.isNumeric (Text.ofNat n) = true := by
    simp [Text.isNumeric, Text.ofNat_ne_nil, Text.all_isDigit_ofNat]
  simp [natBelow?, ofNat, hdigits, h]

theorem isSpelling_of_digits {t : Text} (hne : t ≠ []) (hd : t.all Char.isDigit = true)
    (hz : t.head? = some '0' → t = ['0']) : IsSpelling t := by
  have hchars : ∀ c ∈ t, c.isDigit = true := List.all_eq_true.mp hd
  exact {
    number := by
      cases t with
      | nil => exact absurd rfl hne
      | cons c t =>
        have hdash : c ≠ '-' := by
          rintro rfl
          cases hchars _ List.mem_cons_self
        have htake := List.takeWhile_eq_self_iff.mpr hchars
        have hdrop := List.dropWhile_eq_nil_iff.mpr hchars
        by_cases hc : c = '0'
        · subst hc
          cases hz rfl
          rfl
        · rw [isNumber, if_neg (by simpa using hdash)]
          split
          · simp_all
          · rw [htake, hdrop]
            rfl
    chars c hc := by simp [isNumberChar, hchars c hc] }

theorem isSpelling_ofNat (n : Nat) : IsSpelling (Text.ofNat n) := by
  apply isSpelling_of_digits (Text.ofNat_ne_nil n) (Text.all_isDigit_ofNat n)
  intro hz
  have hall := Text.all_isDigit_ofNat n
  have hvalue := Text.value_ofNat n
  have hlength : ∀ k, 0 < k → ((Text.ofNat n).length ≤ k ↔ n < 10 ^ k) := fun k hk =>
    Nat.length_toDigits_le_iff (by decide) hk
  cases ht : Text.ofNat n with
  | nil => exact absurd ht (Text.ofNat_ne_nil n)
  | cons c t =>
    rw [ht] at hz hall hvalue hlength
    obtain rfl : c = '0' := by simpa using hz
    cases t with
    | nil => rfl
    | cons d t =>
      -- behind a leading zero the number has a place less than digits
      have hlt : Text.value (d :: t) < 10 ^ (d :: t).length :=
        Text.value_lt (List.all_eq_true.mpr fun e he =>
          List.all_eq_true.mp hall e (List.mem_cons_of_mem _ he))
      have hzero : Text.value ('0' :: d :: t) = Text.value (d :: t) := by
        rw [Text.value_cons]
        simp
      rw [← hzero, hvalue] at hlt
      have hle := (hlength (d :: t).length (by simp)).mpr hlt
      simp at hle

theorem Legible.zip {names : List Text} {values : List Json} (h : ∀ j ∈ values, j.Legible) :
    (Json.object (names.zip values)).Legible :=
  .object fun _ hm => h _ (List.of_mem_zip hm).2

theorem Legible.ofOption (h : ∀ a, (form a).Legible) (o : Option α) :
    (Json.ofOption form o).Legible := by
  cases o with
  | none => exact .null
  | some a => exact h a

theorem Legible.map (h : ∀ a, (form a).Legible) (as : List α) :
    (Json.array (as.map form)).Legible := by
  apply Legible.array
  intro j hj
  obtain ⟨a, -, rfl⟩ := List.mem_map.mp hj
  exact h a

theorem Legible.ofTexts (ts : List Text) : (Json.ofTexts ts).Legible :=
  .map (fun _ => .string) ts

end Mediation.Json
