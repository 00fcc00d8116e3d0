import Mediation.Proofs.Text.Letters
import Mediation.Proofs.Version.Build

/-! # Versions of one rank

A list of qualifiers goes on with releases, so two of them may compare as equal although one is
longer. No version has such qualifiers: none of its lists ends in a release. So versions compare as
equal only if they have one rank, and the order of versions is an order of ranks.
-/

namespace Mediation

open Std

namespace Version

namespace Item

instance : LawfulEqCmp Item.compare where
  eq_of_compare {a b} h := by
    cases a <;> cases b
    case named.named s t => exact congrArg named (LawfulEqCmp.eq_of_compare h)
    case number.number m n => exact congrArg number (Nat.compare_eq_eq.mp h)
    all_goals first | rfl | cases h

theorem eq_release_of_known {item : Item} {word : Text} (hd : word.all Text.isDecimalDigit = true)
    (h : known.lookup word = some item) (hitem : item = .release) : word = [] := by
  have hspelt : ∀ p ∈ known, p.2 = .release → p.1 = [] ∨ ¬p.1.all Text.isDecimalDigit = true := by
    decide
  obtain ⟨_, _, hmem, -⟩ := List.lookup_eq_some_iff.mp h
  have hin : (word, item) ∈ known := hmem ▸ List.mem_append_right _ List.mem_cons_self
  exact (hspelt _ hin hitem).resolve_right fun hn => hn hd

theorem ne_release_of_abbreviated {item : Item} {word : Text}
    (h : abbreviated.lookup word = some item) : item ≠ .release := by
  have hmeant : ∀ p ∈ abbreviated, p.2 ≠ .release := by decide
  obtain ⟨_, _, hmem, -⟩ := List.lookup_eq_some_iff.mp h
  have hin : (word, item) ∈ abbreviated := hmem ▸ List.mem_append_right _ List.mem_cons_self
  exact hmeant _ hin

theorem ofToken_ne_release {token : Text} (hne : token ≠ [])
    (hd : token.all Text.isDecimalDigit = true) (follows : Bool) :
    ofToken token follows ≠ .release := by
  intro h
  unfold ofToken at h
  split at h
  · cases h
  simp only [ofWord, Text.lower_of_digits hd] at h
  split at h
  · rename_i item hl
    exact hne (eq_release_of_known hd hl h)
  split at h
  · rename_i item hl
    split at hl
    · exact ne_release_of_abbreviated hl h
    · cases hl
  · cases h

end Item

namespace Rank

variable {x : Item} {xs ys : List Item}

def IsTrimmed (xs : List Item) : Prop := xs.getLast? ≠ some .release

theorem IsTrimmed.tail (h : IsTrimmed (x :: xs)) : IsTrimmed xs := by
  cases xs with
  | nil => nofun
  | cons y ys => rwa [IsTrimmed, List.getLast?_cons_cons] at h

theorem eq_nil_of_compareWithNone (hx : IsTrimmed xs) (h : compareWithNone xs = .eq) : xs = [] := by
  induction xs with
  | nil => rfl
  | cons x xs ih =>
    obtain ⟨h₁, h₂⟩ := Ordering.then_eq_eq.mp h
    obtain rfl : x = .release := LawfulEqCmp.eq_of_compare h₁
    obtain rfl := ih hx.tail h₂
    exact absurd rfl hx

theorem eq_of_compareItems (hx : IsTrimmed xs) (hy : IsTrimmed ys)
    (h : compareItems xs ys = .eq) : xs = ys := by
  induction xs generalizing ys with
  | nil => exact (eq_nil_of_compareWithNone hy (Ordering.swap_eq_eq.mp h)).symm
  | cons x xs ih =>
    cases ys with
    | nil => exact eq_nil_of_compareWithNone hx h
    | cons y ys =>
      obtain ⟨h₁, h₂⟩ := Ordering.then_eq_eq.mp h
      rw [show x = y from LawfulEqCmp.eq_of_compare h₁, ih hx.tail hy.tail h₂]

theorem isTrimmed_dropLastWhile (xs : List Item) :
    IsTrimmed (dropLastWhile Item.isNoise xs) := by
  intro h
  rw [dropLastWhile, List.getLast?_reverse] at h
  have hn := List.head?_dropWhile_not Item.isNoise xs.reverse
  rw [h] at hn
  cases hn

/-- The qualifiers of a build end in its number, those of all other versions are trimmed. -/
theorem isTrimmed_ofText (t : Text) : IsTrimmed (ofText t).items := by
  unfold ofText
  split
  · rename_i b hb
    obtain ⟨hne, hdigits⟩ := Build.number_of_isProper (Build.read?_eq_some_iff.mp hb).1
    have hr := Item.ofToken_ne_release hne hdigits false
    simpa [IsTrimmed] using hr
  · exact isTrimmed_dropLastWhile _

theorem eq_of_compare {s t : Text} (h : (ofText s).compare (ofText t) = .eq) :
    ofText s = ofText t := by
  obtain ⟨hn, hi⟩ := Ordering.then_eq_eq.mp h
  have hi := eq_of_compareItems (isTrimmed_ofText s) (isTrimmed_ofText t) hi
  have hn : (ofText s).numbers = (ofText t).numbers := LawfulEqCmp.eq_of_compare hn
  cases hs : ofText s
  cases ht : ofText t
  simp_all

end Rank

theorem compare_eq_iff_same {v w : Version} : v.compare w = .eq ↔ v.same w = true :=
  ⟨fun h => beq_iff_eq.mpr (Rank.eq_of_compare h), compare_eq_of_same⟩

/-- Versions are totally ordered up to their spelling: the order is antisymmetric and transitive,
it takes for equal what are spellings of one version, and these have all that the order looks at
in common. -/
theorem compare_is_total_order (u v w : Version) :
    u.compare v = (v.compare u).swap ∧
    ((u.compare v).isLE = true → (v.compare w).isLE = true → (u.compare w).isLE = true) ∧
    (u.compare v = .eq ↔ u.same v = true) ∧
    (u.same v = true → u.rank.numbers = v.rank.numbers ∧ u.rank.items = v.rank.items) := by
  refine ⟨OrientedCmp.eq_swap, TransCmp.isLE_trans, compare_eq_iff_same, fun h => ?_⟩
  have hr : u.rank = v.rank := beq_iff_eq.mp h
  exact ⟨congrArg Rank.numbers hr, congrArg Rank.items hr⟩

end Version

end Mediation
