import Mathlib.Data.Nat.Notation
import Mediation.Version.Rank

/-! # The order of versions is total

The order of versions is a lexicographic one: numbers first, and then qualifiers by their
kind, their word and their number, where a list of qualifiers goes on with releases.
-/

namespace Mediation.Version

open Std

theorem transCmp_comp {α β : Type} (cmp : β → β → Ordering) [h : TransCmp cmp] (f : α → β) :
    TransCmp fun a b => cmp (f a) (f b) where
  eq_swap := h.eq_swap
  isLE_trans := h.isLE_trans

namespace Item

def word : Item → Text
  | named w => w
  | _ => []

def size : Item → ℕ
  | number n => n
  | _ => 0

def compareParts : Item → Item → Ordering :=
  compareLex (compareOn tier) (compareLex (compareOn word) (compareOn size))

instance : TransCmp compareParts :=
  inferInstanceAs (TransCmp (compareLex (compareOn tier)
    (compareLex (compareOn word) (compareOn size))))

theorem compare_eq_compareParts : Item.compare = compareParts := by
  funext a b
  cases a <;> cases b
  case named.named s t => simp [compare, compareParts, compareLex, compareOn, tier, word, size]
  case number.number m n => simp [compare, compareParts, compareLex, compareOn, tier, word, size]
  all_goals rfl

instance : TransCmp Item.compare := by
  rw [compare_eq_compareParts]
  infer_instance

end Item

namespace Rank

variable {n : ℕ} {xs ys zs : List Item}

def pad : ℕ → List Item → List Item
  | 0, _ => []
  | n + 1, [] => .release :: pad n []
  | n + 1, x :: xs => x :: pad n xs

theorem compareWithNone_eq (h : xs.length ≤ n) :
    compareWithNone xs = List.compareLex Item.compare (pad n xs) (pad n []) := by
  induction n generalizing xs with
  | zero =>
    obtain rfl := List.length_eq_zero_iff.mp (Nat.le_zero.mp h)
    rfl
  | succ n ih =>
    cases xs with
    | nil =>
      have hn : compareWithNone [] = List.compareLex Item.compare (pad n []) (pad n []) :=
        ih (Nat.zero_le n)
      rw [pad, List.compareLex_cons_cons, ← hn]
      rfl
    | cons x xs =>
      have hn := ih (Nat.le_of_succ_le_succ h)
      rw [pad, pad, List.compareLex_cons_cons, ← hn]
      rfl

theorem compareItems_eq (hx : xs.length ≤ n) (hy : ys.length ≤ n) :
    compareItems xs ys = List.compareLex Item.compare (pad n xs) (pad n ys) := by
  induction n generalizing xs ys with
  | zero =>
    obtain rfl := List.length_eq_zero_iff.mp (Nat.le_zero.mp hx)
    obtain rfl := List.length_eq_zero_iff.mp (Nat.le_zero.mp hy)
    rfl
  | succ n ih =>
    cases xs with
    | nil =>
      rw [compareItems, compareWithNone_eq hy]
      exact OrientedCmp.eq_swap.symm
    | cons x xs =>
      cases ys with
      | nil => rw [compareItems, compareWithNone_eq hx]
      | cons y ys =>
        rw [compareItems, ih (Nat.le_of_succ_le_succ hx) (Nat.le_of_succ_le_succ hy), pad, pad,
          List.compareLex_cons_cons]

instance : TransCmp compareItems where
  eq_swap {xs ys} := by
    have hx := Nat.le_max_left xs.length ys.length
    have hy := Nat.le_max_right xs.length ys.length
    rw [compareItems_eq hx hy, compareItems_eq hy hx]
    exact OrientedCmp.eq_swap
  isLE_trans {xs ys zs} := by
    have hx : xs.length ≤ max xs.length (max ys.length zs.length) := by omega
    have hy : ys.length ≤ max xs.length (max ys.length zs.length) := by omega
    have hz : zs.length ≤ max xs.length (max ys.length zs.length) := by omega
    rw [compareItems_eq hx hy, compareItems_eq hy hz, compareItems_eq hx hz]
    exact TransCmp.isLE_trans

instance : TransCmp Rank.compare :=
  have := transCmp_comp compareItems items
  inferInstanceAs (TransCmp (compareLex (compareOn numbers)
    fun r s => compareItems r.items s.items))

end Rank

instance : TransCmp Version.compare := transCmp_comp Rank.compare rank

theorem compare_eq_of_same {v w : Version} (h : v.same w = true) : v.compare w = .eq := by
  have hr : v.rank = w.rank := beq_iff_eq.mp h
  unfold compare
  rw [hr]
  exact ReflCmp.compare_self

end Mediation.Version
