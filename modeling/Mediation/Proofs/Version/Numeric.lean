import Mediation.Proofs.Text.Letters
import Mediation.Proofs.Text.Magnitude
import Mediation.Proofs.Version.Snapshot

/-! # Versions of numbers only

Numbers with dots between them are all that there is to such a version. Two of them compare
number by number, whatever the size of the numbers, and the shorter one goes on with zeros.
-/

namespace Mediation

open Std

namespace Version

variable {n : ℕ} {ms ns : List ℕ}

abbrev strip (ms : List ℕ) : List ℕ := dropLastWhile (· == 0) ms

theorem strip_cons (m : ℕ) (ms : List ℕ) :
    strip (m :: ms) = if strip ms = [] ∧ m = 0 then [] else m :: strip ms := by
  have hempty : (ms.reverse.dropWhile (· == 0)).isEmpty = true ↔ strip ms = [] := by
    rw [List.isEmpty_iff, strip, dropLastWhile, List.reverse_eq_nil_iff]
  rw [strip, dropLastWhile, List.reverse_cons, List.dropWhile_append]
  by_cases hms : strip ms = []
  · rw [if_pos (hempty.mpr hms)]
    by_cases hm : m = 0 <;> simp [hms, hm]
  · rw [if_neg (hempty.not.mpr hms), if_neg fun h => hms h.1, List.reverse_append]
    rfl

theorem compare_nil_cons_strip {m : ℕ} (h : ¬ (strip ms = [] ∧ m = 0)) :
    (Ord.compare 0 m).then (Ord.compare [] (strip ms)) = .lt := by
  cases m with
  | succ m => rfl
  | zero =>
    obtain ⟨k, ks, hk⟩ := List.exists_cons_of_ne_nil fun hms => h ⟨hms, rfl⟩
    rw [hk]
    rfl

theorem compare_strip_cons (m n : ℕ) (ms ns : List ℕ) :
    Ord.compare (strip (m :: ms)) (strip (n :: ns)) =
      (Ord.compare m n).then (Ord.compare (strip ms) (strip ns)) := by
  rw [strip_cons, strip_cons]
  split_ifs with hm hn hn
  · rw [hm.1, hm.2, hn.1, hn.2]
    rfl
  · rw [hm.1, hm.2, compare_nil_cons_strip hn]
    rfl
  · have hswap := congrArg Ordering.swap (compare_nil_cons_strip hm)
    rw [Ordering.swap_then, ← OrientedCmp.eq_swap, ← OrientedCmp.eq_swap] at hswap
    rw [hn.1, hn.2, hswap]
    rfl
  · exact List.compare_cons_cons

/-- A list that is filled up with a zero at least has a first number and others. -/
theorem exists_rightpad_succ (h : ms.length ≤ n + 1) : ∃ k ks, ks.length ≤ n ∧
    strip ms = strip (k :: ks) ∧ ms.rightpad (n + 1) 0 = k :: ks.rightpad n 0 := by
  cases ms with
  | nil => exact ⟨0, [], Nat.zero_le n, rfl, rfl⟩
  | cons k ks =>
    refine ⟨k, ks, Nat.le_of_succ_le_succ h, rfl, ?_⟩
    simp [List.rightpad]

/-- Lists without the zeros at their end compare as with zeros up to one length. -/
theorem compare_strip (hm : ms.length ≤ n) (hn : ns.length ≤ n) :
    Ord.compare (strip ms) (strip ns) = Ord.compare (ms.rightpad n 0) (ns.rightpad n 0) := by
  induction n generalizing ms ns with
  | zero =>
    obtain rfl := List.length_eq_zero_iff.mp (Nat.le_zero.mp hm)
    obtain rfl := List.length_eq_zero_iff.mp (Nat.le_zero.mp hn)
    rfl
  | succ n ih =>
    obtain ⟨k, ks, hks, hstrip, hpad⟩ := exists_rightpad_succ hm
    obtain ⟨l, ls, hls, hstrip', hpad'⟩ := exists_rightpad_succ hn
    rw [hstrip, hstrip', hpad, hpad', compare_strip_cons, ih hks hls, List.compare_cons_cons]

variable {c : Char} {t x : Text} {xs ys : List Text} {separator : Separator}

abbrev dotted (xs : List Text) : Text := Text.joinWith "." xs

theorem dotted_cons_cons (x y : Text) (xs : List Text) :
    dotted (x :: y :: xs) = x ++ '.' :: dotted (y :: xs) := by
  rw [dotted, Text.joinWith_cons_cons, List.append_assoc]
  rfl

theorem eq_dot_or_isDigit (hx : ∀ x ∈ xs, x.all Char.isDigit = true) (hc : c ∈ dotted xs) :
    c = '.' ∨ c.isDigit = true := by
  induction xs with
  | nil => cases hc
  | cons x xs ih =>
    obtain ⟨hhead, htail⟩ := List.forall_mem_cons.mp hx
    rw [List.all_eq_true] at hhead
    cases xs with
    | nil =>
      rw [dotted, Text.joinWith_singleton] at hc
      exact .inr (hhead c hc)
    | cons y xs =>
      rw [dotted_cons_cons, List.mem_append, List.mem_cons] at hc
      rcases hc with hc | rfl | hc
      · exact .inr (hhead c hc)
      · exact .inl rfl
      · exact ih htail hc

theorem isTight_dotted (hx : ∀ x ∈ xs, x.all Char.isDigit = true) : (dotted xs).IsTight := by
  have hblank {c : Char} (hc : c ∈ dotted xs) : Text.isBlank c = false := by
    rcases eq_dot_or_isDigit hx hc with rfl | hd
    · decide
    · exact Text.not_isBlank_of_isDigit hd
  exact ⟨fun _ hc => hblank (List.mem_of_mem_head? hc),
    fun _ hc => hblank (List.mem_of_mem_getLast? hc)⟩

theorem isTimestamped_dotted (hx : ∀ x ∈ xs, x.all Char.isDigit = true) :
    isTimestamped ⟨dotted xs⟩ = false := by
  rw [isTimestamped, build?, Option.isSome_eq_false_iff, Option.isNone_iff_eq_none]
  refine Option.eq_none_iff_forall_ne_some.mpr fun b hb => ?_
  have htext : b.text = dotted xs := (Build.read?_eq_some_iff.mp hb).2
  have hmem : '-' ∈ dotted xs := htext ▸ by simp [Build.text]
  rcases eq_dot_or_isDigit hx hmem with h | h <;> exact absurd h (by decide)

theorem isUniform_of_digits (h : x.all Char.isDigit = true) : Token.IsUniform true x := by
  rw [List.all_eq_true] at h
  exact ⟨fun hm => absurd (h _ hm) (by decide), fun hm => absurd (h _ hm) (by decide), h⟩

theorem splitAfter_dotted (hx : ∀ x ∈ xs, x.all Char.isDigit = true)
    (h : x.all Char.isDigit = true) : Token.splitAfter separator (dotted (x :: xs)) =
      ⟨separator, x⟩ :: xs.map fun y => ⟨.dot, y⟩ := by
  induction xs generalizing x separator with
  | nil =>
    rw [dotted, Text.joinWith_singleton, Token.splitAfter_of_isUniform (isUniform_of_digits h)]
    rfl
  | cons y xs ih =>
    obtain ⟨hy, hxs⟩ := List.forall_mem_cons.mp hx
    rw [dotted_cons_cons, Token.splitAfter_append _ .dot _ _ rfl,
      Token.splitAfter_of_isUniform (isUniform_of_digits h), ih hxs hy]
    rfl

theorem takeNumbers_of_digits {ts : List Token} (h : ∀ t ∈ ts,
    (t.separator = .start ∨ t.separator = .dot) ∧ t.text.all Char.isDigit = true) :
    takeNumbers ts = (ts.map fun t => Text.value t.text, []) := by
  induction ts with
  | nil => rfl
  | cons t ts ih =>
    obtain ⟨⟨hs, hd⟩, hts⟩ := List.forall_mem_cons.mp h
    have hcond : ((t.separator == .start || t.separator == .dot) &&
        t.text.all Char.isDigit) = true := by
      simpa [hd] using hs
    rw [takeNumbers, if_pos hcond, ih hts]
    rfl

theorem rank_dotted (hx : ∀ x ∈ xs, x.all Char.isDigit = true) :
    rank ⟨dotted xs⟩ = ⟨strip (xs.map Text.value), []⟩ := by
  rw [rank_of_plain (isTimestamped_dotted hx)]
  cases xs with
  | nil => rfl
  | cons x xs =>
    obtain ⟨hhead, htail⟩ := List.forall_mem_cons.mp hx
    have htokens : ∀ t ∈ Token.split (dotted (x :: xs)),
        (t.separator = .start ∨ t.separator = .dot) ∧ t.text.all Char.isDigit = true := by
      rw [Token.split, splitAfter_dotted htail hhead, List.forall_mem_cons, List.forall_mem_map]
      exact ⟨⟨.inl rfl, hhead⟩, fun y hy => ⟨.inr rfl, htail y hy⟩⟩
    simp only [Rank.ofPlain, (isTight_dotted hx).trim_eq, takeNumbers_of_digits htokens]
    rw [Token.split, splitAfter_dotted htail hhead, List.map_cons, List.map_map]
    rfl

theorem compareLex_map {α β : Type} {cmp : α → α → Ordering} {cmp' : β → β → Ordering} (f : α → β)
    {as bs : List α} (h : ∀ a ∈ as, ∀ b ∈ bs, cmp' (f a) (f b) = cmp a b) :
    List.compareLex cmp' (as.map f) (bs.map f) = List.compareLex cmp as bs := by
  induction as generalizing bs with
  | nil => cases bs <;> rfl
  | cons a as ih =>
    cases bs with
    | nil => rfl
    | cons b bs =>
      simp only [List.forall_mem_cons] at h
      rw [List.map_cons, List.map_cons, List.compareLex_cons_cons, List.compareLex_cons_cons,
        h.1.1, ih fun a ha b hb => (h.2 a ha).2 b hb]

/-- Versions of numbers only compare as the lists of these numbers do, where the shorter list goes
on with zeros. So they compare by their digits, however many there are. -/
theorem compare_dotted (hx : ∀ x ∈ xs, x.all Char.isDigit = true)
    (hy : ∀ y ∈ ys, y.all Char.isDigit = true) :
    compare ⟨dotted xs⟩ ⟨dotted ys⟩ =
        Ord.compare ((xs.map Text.value).rightpad (max xs.length ys.length) 0)
          ((ys.map Text.value).rightpad (max xs.length ys.length) 0) ∧
      compare ⟨dotted xs⟩ ⟨dotted ys⟩ =
        List.compareLex Text.compareDigits (xs.rightpad (max xs.length ys.length) ['0'])
          (ys.rightpad (max xs.length ys.length) ['0']) := by
  set n := max xs.length ys.length with hn
  have hnumbers : compare ⟨dotted xs⟩ ⟨dotted ys⟩ =
      Ord.compare ((xs.map Text.value).rightpad n 0) ((ys.map Text.value).rightpad n 0) := by
    have hxn : (xs.map Text.value).length ≤ n := by simp [hn]
    have hyn : (ys.map Text.value).length ≤ n := by simp [hn]
    rw [compare, rank_dotted hx, rank_dotted hy, ← compare_strip hxn hyn]
    exact Ordering.then_eq
  refine ⟨hnumbers, ?_⟩
  have hpad (zs : List Text) :
      (zs.map Text.value).rightpad n 0 = (zs.rightpad n ['0']).map Text.value := by
    have hzero : Text.value ['0'] = 0 := by decide
    simp [List.rightpad, hzero]
  have hall {zs : List Text} (hz : ∀ z ∈ zs, z.all Char.isDigit = true) :
      ∀ z ∈ zs.rightpad n ['0'], z.all Char.isDigit = true := by
    intro z hmem
    rcases List.mem_append.mp hmem with hmem | hmem
    · exact hz z hmem
    · exact List.eq_of_mem_replicate hmem ▸ rfl
  rw [hnumbers, hpad, hpad]
  exact compareLex_map Text.value fun x hmem y hmem' =>
    Text.compare_value (hall hx x hmem) (hall hy y hmem')

/-- A number with leading zeros and one that does not fit 64 bits, behind the same number. -/
theorem compare_dotted_of_long :
    compare ⟨dotted [['2'], "00017", ['0']]⟩ ⟨dotted [['2'], "18446744073709551616"]⟩ = .lt ∧
      compare ⟨dotted [['2'], "00017", ['0']]⟩ ⟨dotted [['2'], "17"]⟩ = .eq := by
  have hshort : ∀ x ∈ [['2'], "00017", ['0']], x.all Char.isDigit = true := by decide
  have hlong : ∀ y ∈ [['2'], "18446744073709551616".toList], y.all Char.isDigit = true := by
    decide
  have hequal : ∀ y ∈ [['2'], "17".toList], y.all Char.isDigit = true := by decide
  rw [(compare_dotted hshort hlong).1, (compare_dotted hshort hequal).1]
  decide

end Version

end Mediation
