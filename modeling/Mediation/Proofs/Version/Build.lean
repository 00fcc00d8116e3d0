import Mathlib.Data.Nat.Notation
import Mediation.Proofs.Text.Digits
import Mediation.Proofs.Version.Order

/-! # Builds and their order

A build is read off its text again, so its base is known, and the builds of one base are ordered by
their day, their time and their number.
-/

namespace Mediation

open Std

namespace Build

/-- A build whose base is one line and whose other parts are ASCII digits. -/
structure IsPlain (b : Build) : Prop where
  base : '\n' ∉ b.base
  length_day : b.day.length = 8
  digits_day : b.day.all Char.isDigit = true
  length_time : b.time.length = 6
  digits_time : b.time.all Char.isDigit = true
  number_ne : b.number ≠ []
  digits_number : b.number.all Char.isDigit = true

variable {b c : Build} {t : Text}

theorem takeBack_append {n : ℕ} {s t : Text} (h : t.length = n) :
    takeBack n (t.reverse ++ s) = (t, s) := by
  have hn : n = t.reverse.length := by rw [List.length_reverse, h]
  rw [takeBack, hn, List.take_left, List.drop_left, List.reverse_reverse]

theorem cut?_text (hd : b.day.length = 8) (ht : b.time.length = 6)
    (hn : b.number.all Text.isDecimalDigit = true) : cut? b.text = some b := by
  have hrev : b.text.reverse = b.number.reverse ++
      '-' :: (b.time.reverse ++ '.' :: (b.day.reverse ++ '-' :: b.base.reverse)) := by
    simp [text]
  have hall : ∀ c ∈ b.number.reverse, Text.isDecimalDigit c = true := fun c hc =>
    List.all_eq_true.mp hn c (List.mem_reverse.mp hc)
  have hdash : Text.isDecimalDigit '-' = false := by decide
  have htake : b.text.reverse.takeWhile Text.isDecimalDigit = b.number.reverse := by
    rw [hrev, List.takeWhile_append_of_pos hall, List.takeWhile_cons_of_neg (by simp [hdash]),
      List.append_nil]
  have hdrop : b.text.reverse.dropWhile Text.isDecimalDigit =
      '-' :: (b.time.reverse ++ '.' :: (b.day.reverse ++ '-' :: b.base.reverse)) := by
    rw [hrev, List.dropWhile_append_of_pos hall, List.dropWhile_cons_of_neg (by simp [hdash])]
  simp only [cut?, htake, hdrop, takeBack_append hd, takeBack_append ht, List.reverse_reverse]

theorem read?_text (h : b.isProper = true) : read? b.text = some b := by
  have hp := h
  simp only [isProper, Bool.and_eq_true, beq_iff_eq] at hp
  rw [read?, cut?_text hp.1.1.1.1.1.2 hp.1.1.1.2 hp.2]
  exact Option.filter_eq_some_iff.mpr ⟨rfl, h⟩

theorem reverse_takeBack_append (n : ℕ) (t : Text) :
    (takeBack n t).1.reverse ++ (takeBack n t).2 = t := by
  simp [takeBack]

theorem text_of_cut? (h : cut? t = some b) : b.text = t := by
  have hnumber := List.takeWhile_append_dropWhile (p := Text.isDecimalDigit) (l := t.reverse)
  simp only [cut?] at h
  split at h
  · rename_i r₁ hr₁
    have htime := reverse_takeBack_append 6 r₁
    split at h
    · rename_i r₃ hr₃
      have hday := reverse_takeBack_append 8 r₃
      split at h
      · rename_i r₅ hr₅
        cases h
        rw [hr₁, ← htime, hr₃, ← hday, hr₅] at hnumber
        refine List.reverse_inj.mp (Eq.trans ?_ hnumber)
        simp [text]
      · cases h
    · cases h
  · cases h

theorem read?_eq_some_iff : read? t = some b ↔ b.isProper = true ∧ b.text = t := by
  constructor
  · intro h
    obtain ⟨hcut, hp⟩ := Option.filter_eq_some_iff.mp h
    exact ⟨hp, text_of_cut? hcut⟩
  · rintro ⟨hp, rfl⟩
    exact read?_text hp

theorem number_of_isProper (h : b.isProper = true) :
    b.number ≠ [] ∧ b.number.all Text.isDecimalDigit = true := by
  simp only [isProper, Bool.and_eq_true, Bool.not_eq_true', List.isEmpty_eq_false_iff] at h
  exact ⟨h.1.2, h.2⟩

theorem getLast?_text (h : b.number ≠ []) : b.text.getLast? = b.number.getLast? := by
  obtain ⟨d, hd⟩ := Option.isSome_iff_exists.mp (List.getLast?_isSome.mpr h)
  simp [text, List.getLast?_append, List.getLast?_cons, hd]

theorem read?_eq_none {d : Char} (ht : t.getLast? = some d)
    (hd : Text.isDecimalDigit d = false) : read? t = none := by
  refine Option.eq_none_iff_forall_ne_some.mpr fun b h => ?_
  obtain ⟨hp, rfl⟩ := read?_eq_some_iff.mp h
  obtain ⟨hne, hall⟩ := number_of_isProper hp
  rw [getLast?_text hne] at ht
  have hdigit := List.all_eq_true.mp hall d (List.mem_of_getLast? ht)
  simp [hd] at hdigit

theorem IsPlain.isProper (h : b.IsPlain) : b.isProper = true := by
  have hn : b.number.isEmpty = false := List.isEmpty_eq_false_iff.mpr h.number_ne
  simp [Build.isProper, h.base, hn, h.length_day, h.length_time,
    Text.all_isDecimalDigit h.digits_day, Text.all_isDecimalDigit h.digits_time,
    Text.all_isDecimalDigit h.digits_number]

end Build

namespace Version

theorem Item.ofToken_of_digits {t : Text} (hne : t ≠ []) (h : t.all Char.isDigit = true)
    (follows : Bool) : Item.ofToken t follows = .number (Text.value t) := by
  have hn : Text.isNumeric t = true := by
    rw [Text.isNumeric, h, List.isEmpty_eq_false_iff.mpr hne]
    rfl
  rw [Item.ofToken, if_pos hn]

theorem Rank.compareItems_append_left (xs ys zs : List Item) :
    compareItems (xs ++ ys) (xs ++ zs) = compareItems ys zs := by
  induction xs with
  | nil => rfl
  | cons x xs ih =>
    have hx : x.compare x = .eq := ReflCmp.compare_self
    rw [List.cons_append, List.cons_append, compareItems, ih, hx]
    rfl

theorem Rank.compare_of_numbers (ns : List ℕ) (xs ys : List Item) :
    Rank.compare ⟨ns, xs⟩ ⟨ns, ys⟩ = compareItems xs ys := by
  have hn : Ord.compare ns ns = .eq := ReflCmp.compare_self
  rw [Rank.compare, hn]
  rfl

variable {b c : Build}

theorem Rank.ofText_build (h : b.IsPlain) : ofText b.text =
    ⟨(ofPlain b.base).numbers, (ofPlain b.base).items ++ [.snapshot, .number (Text.value b.day),
      .number (Text.value b.time), .number (Text.value b.number)]⟩ := by
  have hd : b.day ≠ [] := List.ne_nil_of_length_pos (h.length_day ▸ by decide)
  have ht : b.time ≠ [] := List.ne_nil_of_length_pos (h.length_time ▸ by decide)
  simp only [ofText, Build.read?_text h.isProper, Item.ofToken_of_digits hd h.digits_day,
    Item.ofToken_of_digits ht h.digits_time, Item.ofToken_of_digits h.number_ne h.digits_number]

/-- Builds of one base are ordered by their day, then their time, then their number. -/
theorem compare_build (hb : b.IsPlain) (hc : c.IsPlain) (hbase : b.base = c.base) :
    compare ⟨b.text⟩ ⟨c.text⟩ = (Ord.compare (Text.value b.day) (Text.value c.day)).then
      ((Ord.compare (Text.value b.time) (Text.value c.time)).then
        (Ord.compare (Text.value b.number) (Text.value c.number))) := by
  rw [compare, rank, rank, Rank.ofText_build hb, Rank.ofText_build hc, hbase,
    Rank.compare_of_numbers, Rank.compareItems_append_left]
  simp only [Rank.compareItems, Rank.compareWithNone, Item.compare, Ordering.swap_eq,
    Ordering.then_eq]
  rfl

def snapshotOf (stem : Text) : Version := ⟨stem ++ '-' :: snapshotMark⟩

theorem isOpenSnapshot_snapshotOf (stem : Text) : (snapshotOf stem).isOpenSnapshot = true := by
  refine List.isSuffixOf_iff_suffix.mpr ⟨Text.lower (stem ++ ['-']), ?_⟩
  rw [← Text.lower_append, snapshotOf, List.append_assoc]
  rfl

theorem getLast?_snapshotOf (stem : Text) : (snapshotOf stem).text.getLast? = some 'T' := by
  have hmark : snapshotMark.getLast? = some 'T' := by decide
  simp only [snapshotOf, List.getLast?_append, List.getLast?_cons, hmark, Option.getD_some,
    Option.some_or]

theorem openStem_snapshotOf (stem : Text) : (snapshotOf stem).openStem = stem ++ ['-'] := by
  have happend : (snapshotOf stem).text = (stem ++ ['-']) ++ snapshotMark := by
    rw [snapshotOf, List.append_assoc]
    rfl
  rw [openStem, happend, List.length_append, Nat.add_sub_cancel, List.take_left]

theorem build?_text (h : b.isProper = true) : build? ⟨b.text⟩ = some b := Build.read?_text h

theorem base_build (h : b.isProper = true) : base ⟨b.text⟩ = snapshotOf b.base := by
  rw [base, build?_text h]
  rfl

theorem isTimestamped_build (h : b.isProper = true) : isTimestamped ⟨b.text⟩ = true := by
  rw [isTimestamped, build?_text h]
  rfl

end Version

end Mediation
