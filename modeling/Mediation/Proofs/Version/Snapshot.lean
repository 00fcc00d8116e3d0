import Mediation.Proofs.Text.Trim
import Mediation.Proofs.Version.Build
import Mediation.Proofs.Version.Token

/-! # Snapshots, builds and releases

A build comes before its base, because the qualifiers of its base go on with a snapshot where
the base goes on with releases. An open snapshot keeps the qualifiers without weight at the end
of its base. Such a qualifier puts it behind the builds, and a zero puts it behind the release
as well.
-/

namespace Mediation.Version

open Std

theorem takeNumbers_append_hyphen (ts : List Token) (w : Text) (us : List Token) :
    takeNumbers (ts ++ ⟨.hyphen, w⟩ :: us) =
      ((takeNumbers ts).1, (takeNumbers ts).2 ++ ⟨.hyphen, w⟩ :: us) := by
  have hnone : takeNumbers (⟨.hyphen, w⟩ :: us) = ([], ⟨.hyphen, w⟩ :: us) := rfl
  rw [takeNumbers_append, hnone]
  split
  · rename_i hrest
    rw [hrest, List.append_nil, List.nil_append]
  · rfl

namespace Rank

variable {t : Text} {x : Item} {xs ys zs : List Item}

def qualifiers (t : Text) : List Item := itemsOf (takeNumbers (Token.split t.trim)).2

def noise (t : Text) : List Item := ((qualifiers t).reverse.takeWhile Item.isNoise).reverse

theorem qualifiers_eq (t : Text) : qualifiers t = (ofPlain t).items ++ noise t := by
  change qualifiers t = dropLastWhile Item.isNoise (qualifiers t) ++ noise t
  rw [dropLastWhile, noise, ← List.reverse_append, List.takeWhile_append_dropWhile,
    List.reverse_reverse]

theorem isNoise_of_mem_noise (h : x ∈ noise t) : x.isNoise = true :=
  List.mem_takeWhile_imp (List.mem_reverse.mp h)

theorem eq_of_isNoise (h : x.isNoise = true) : x = .release ∨ x = .number 0 := by
  cases x <;> simp_all [Item.isNoise]

theorem ofText_of_plain (h : Build.read? t = none) : ofText t = ofPlain t := by
  simp [ofText, h]

theorem dropLastWhile_concat {α : Type} {p : α → Bool} {xs : List α} {x : α} (h : p x = false) :
    dropLastWhile p (xs ++ [x]) = xs ++ [x] := by
  simp [dropLastWhile, h]

theorem split_snapshotOf (h : t.IsTight) : Token.split (snapshotOf t).text.trim =
    Token.split t.trim ++ [⟨.hyphen, snapshotMark⟩] := by
  have hmark : Token.splitAfter .hyphen snapshotMark = [⟨.hyphen, snapshotMark⟩] := by decide
  have htight : snapshotMark.IsTight := .of_ends (c := 'S') (d := 'T') rfl rfl rfl rfl
  have hsnapshot : (snapshotOf t).text.IsTight := h.append_cons rfl htight
  rw [hsnapshot.trim_eq, h.trim_eq, snapshotOf, Token.split,
    Token.splitAfter_append _ .hyphen _ _ rfl, hmark, Token.split]

/-- An open snapshot has the numbers of its stem and all its qualifiers, and then a snapshot. -/
theorem ofText_snapshotOf (h : t.IsTight) :
    ofText (snapshotOf t).text = ⟨(ofPlain t).numbers, qualifiers t ++ [.snapshot]⟩ := by
  have hread : Build.read? (snapshotOf t).text = none :=
    Build.read?_eq_none (getLast?_snapshotOf t) (by decide)
  have hitems : itemsOf [⟨.hyphen, snapshotMark⟩] = [.snapshot] := by decide
  simp only [ofText_of_plain hread, ofPlain, split_snapshotOf h, takeNumbers_append_hyphen,
    itemsOf_append _ (u := ⟨.hyphen, snapshotMark⟩) _ nofun, hitems,
    dropLastWhile_concat (p := Item.isNoise) (x := .snapshot) rfl, qualifiers]

theorem compareItems_append_self (xs ys : List Item) :
    compareItems (xs ++ ys) xs = compareWithNone ys := by
  have h := compareItems_append_left xs ys []
  rw [List.append_nil] at h
  rw [h]
  cases ys <;> rfl

theorem compareWithNone_noise (h : ∀ x ∈ xs, x.isNoise = true) :
    compareWithNone (xs ++ [.snapshot]) = .lt ↔ ∀ x ∈ xs, x = .release := by
  induction xs with
  | nil => exact ⟨nofun, fun _ => rfl⟩
  | cons x xs ih =>
    obtain ⟨hx, hxs⟩ := List.forall_mem_cons.mp h
    rcases eq_of_isNoise hx with rfl | rfl
    · have heq : Item.compare .release .release = .eq := rfl
      simpa [compareWithNone, heq] using ih hxs
    · have hgt : Item.compare (.number 0) .release = .gt := rfl
      simp [compareWithNone, hgt]

theorem compareItems_noise {n : ℕ} (h : ∀ x ∈ xs, x.isNoise = true) :
    compareItems (xs ++ [.snapshot]) (.snapshot :: .number n :: ys) = .lt ↔ xs = [] := by
  cases xs with
  | nil => exact ⟨fun _ => rfl, fun _ => rfl⟩
  | cons x xs =>
    have hgt : x.compare .snapshot = .gt := by
      rcases eq_of_isNoise (h x List.mem_cons_self) with rfl | rfl <;> rfl
    simp [compareItems, hgt]

end Rank

open Rank

variable {t : Text} {b c : Build}

theorem rank_of_plain (h : isTimestamped ⟨t⟩ = false) : rank ⟨t⟩ = ofPlain t := by
  refine ofText_of_plain ?_
  simpa [isTimestamped, build?] using h

/-- Builds of one base are ordered by their day, their time and their number, and come before
their base. -/
theorem builds_precede_base (hb : b.IsPlain) (hc : c.IsPlain) (hbase : b.base = c.base)
    (hplain : isTimestamped ⟨c.base⟩ = false) :
    compare ⟨b.text⟩ ⟨c.text⟩ = (Ord.compare (Text.value b.day) (Text.value c.day)).then
      ((Ord.compare (Text.value b.time) (Text.value c.time)).then
        (Ord.compare (Text.value b.number) (Text.value c.number))) ∧
    compare ⟨b.text⟩ ⟨c.base⟩ = .lt ∧ compare ⟨c.text⟩ ⟨c.base⟩ = .lt := by
  have hbelow {d : Build} (hd : d.IsPlain) (hdc : d.base = c.base) :
      compare ⟨d.text⟩ ⟨c.base⟩ = .lt := by
    rw [compare, rank_of_plain hplain, rank, ofText_build hd, hdc, compare_of_numbers,
      compareItems_append_self]
    rfl
  exact ⟨compare_build hb hc hbase, hbelow hb hbase, hbelow hc rfl⟩

def noonBuild (base number : Text) : Build := ⟨base, "20090101", "120000", number⟩

theorem isPlain_noonBuild {base number : Text} (hbase : '\n' ∉ base) (hne : number ≠ [])
    (hdigits : number.all Char.isDigit = true) : (noonBuild base number).IsPlain :=
  ⟨hbase, rfl, rfl, rfl, rfl, hne, hdigits⟩

theorem builds_precede_base_of_padded :
    compare ⟨"1-rc-20090101.120000-9".toList⟩ ⟨"1-rc-20090101.120000-010".toList⟩ = .lt ∧
      compare ⟨"1-rc-20090101.120000-9".toList⟩ ⟨"1-rc"⟩ = .lt ∧
      compare ⟨"1-rc-20090101.120000-010".toList⟩ ⟨"1-rc"⟩ = .lt := by
  have hb : (noonBuild "1-rc" "9").IsPlain :=
    isPlain_noonBuild (by decide) (by decide) (by decide)
  have hc : (noonBuild "1-rc" "010").IsPlain :=
    isPlain_noonBuild (by decide) (by decide) (by decide)
  have hbt : "1-rc-20090101.120000-9".toList = (noonBuild "1-rc" "9").text := by decide
  have hct : "1-rc-20090101.120000-010".toList = (noonBuild "1-rc" "010").text := by decide
  rw [hbt, hct]
  exact builds_precede_base hb hc rfl (by decide +kernel)

/-- An open snapshot comes before its release exactly if no zero is among the qualifiers without
weight at the end of the release, and before its builds exactly if there are no such
qualifiers. -/
theorem snapshot_precedes_iff (ht : t.IsTight) (hplain : isTimestamped ⟨t⟩ = false)
    (hb : b.IsPlain) (hbase : b.base = t) :
    (compare (snapshotOf t) ⟨t⟩ = .lt ↔ ∀ x ∈ noise t, x = .release) ∧
    (compare (snapshotOf t) ⟨b.text⟩ = .lt ↔ noise t = []) := by
  have hnoise : ∀ x ∈ noise t, x.isNoise = true := fun _ => isNoise_of_mem_noise
  have hrank : rank (snapshotOf t) =
      ⟨(ofPlain t).numbers, (ofPlain t).items ++ (noise t ++ [.snapshot])⟩ := by
    rw [rank, ofText_snapshotOf ht, qualifiers_eq, List.append_assoc]
  constructor
  · rw [compare, hrank, rank_of_plain hplain, compare_of_numbers, compareItems_append_self,
      compareWithNone_noise hnoise]
  · rw [compare, hrank, rank, ofText_build hb, hbase, compare_of_numbers,
      compareItems_append_left, compareItems_noise hnoise]

/-- A release word at the end leaves a snapshot before its release, but not before its builds. -/
theorem snapshot_precedes_iff_of_release_word :
    compare (snapshotOf "1.0-ga") ⟨"1.0-ga"⟩ = .lt ∧
      ¬ compare (snapshotOf "1.0-ga") ⟨"1.0-ga-20090101.120000-1".toList⟩ = .lt := by
  have hb : (noonBuild "1.0-ga" "1").IsPlain :=
    isPlain_noonBuild (by decide) (by decide) (by decide)
  have ht : Text.IsTight "1.0-ga" := .of_ends (c := '1') (d := 'a') rfl rfl rfl rfl
  obtain ⟨hrelease, hbuild⟩ := snapshot_precedes_iff ht (by decide +kernel) hb rfl
  exact ⟨hrelease.mpr (by decide +kernel), fun h => absurd (hbuild.mp h) (by decide +kernel)⟩

/-- A zero at the end puts a snapshot behind its release. -/
example : compare (snapshotOf "1.0-0") ⟨"1.0-0"⟩ = .gt := by decide +kernel

end Mediation.Version
