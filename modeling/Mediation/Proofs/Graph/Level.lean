import Mathlib.Data.List.Sort
import Mediation.Proofs.Graph.Visible

/-! # Levels in the order of ids

Where the parents come in the order of their children, ids grow from level to level. So a
breadth-first walk meets the nodes in the order of their ids.
-/

namespace Mediation.Graph

variable {g : Graph} {i j n : ℕ} {level : List NodeId}

/-- Whether nodes come in the order of their parents, and children in the order of their ids. -/
structure IsOrderly (g : Graph) : Prop where
  parents : ∀ i j p q : ℕ, (g.node i).parent = some p → (g.node j).parent = some q → i ≤ j → p ≤ q
  children : ∀ p, (g.children p).Pairwise (· < ·)

namespace IsOrderly

variable (o : g.IsOrderly) (t : g.IsTree)
include o t

theorem depth_le (hij : i ≤ j) (hj : j < g.size) : (g.node i).depth ≤ (g.node j).depth := by
  induction j using Nat.strong_induction_on generalizing i with
  | _ j ih =>
    by_cases hi : i = root
    · rw [hi, t.depth_root]
      exact Nat.zero_le _
    have hjr : j ≠ root := by
      rintro rfl
      exact hi (Nat.le_zero.mp hij)
    obtain ⟨p, -, hp⟩ := t.parent_lt i (hij.trans_lt hj) hi
    obtain ⟨q, hq, hpq⟩ := t.parent_lt j hj hjr
    rw [t.depth_eq i p hp, t.depth_eq j q hpq]
    exact Nat.succ_le_succ (ih q hq (o.parents i j p q hp hpq hij) (hq.trans hj))

theorem sorted_flatMap_children (h : level.Pairwise (· < ·)) :
    (level.flatMap g.children).Pairwise (· < ·) := by
  refine List.pairwise_flatMap.mpr ⟨fun p _ => o.children p, h.imp fun {p q} hpq a ha b hb => ?_⟩
  by_contra hab
  have hqp := o.parents b a q p (t.child q b hb).2 (t.child p a ha).2 (not_lt.mp hab)
  exact absurd hqp (not_le.mpr hpq)

theorem sorted_shownBelow {d : ℕ} (h : level.Pairwise (· < ·))
    (hd : ∀ p ∈ level, (g.node p).depth = d) : (g.shownBelow n level).Pairwise (· < ·) := by
  induction n generalizing level d with
  | zero => exact .nil
  | succ n ih =>
    have hnext := o.sorted_flatMap_children t h
    have hdepth : ∀ c ∈ level.flatMap g.children, (g.node c).depth = d + 1 :=
      fun c hc => t.depth_of_mem_flatMap hd hc
    have hfilter : ∀ p ∈ (level.flatMap g.children).filter g.isIncluded,
        (g.node p).depth = d + 1 := fun p hp => hdepth p (List.mem_of_mem_filter hp)
    rw [shownBelow_succ]
    refine List.pairwise_append.mpr ⟨hnext, ih (hnext.filter _) hfilter, fun a ha b hb => ?_⟩
    -- what is further down is deeper, and so it is younger
    have hdeep := (t.nodup_shownBelow (n := n) (hnext.filter g.isIncluded).nodup hfilter).2 b hb
    by_contra hab
    obtain ⟨p, -, ha'⟩ := List.mem_flatMap.mp ha
    have hle := o.depth_le t (not_lt.mp hab) (t.child p a ha').1
    rw [hdepth a ha] at hle
    omega

/-- The nodes of the resolved tree in the order of their ids, if they all belong to it. -/
theorem visible_eq_range (hr : g.isIncluded root = true)
    (ha : ∀ i : ℕ, i ≠ root → i < g.size → ∃ p : ℕ, g.isIncluded p = true ∧ i ∈ g.children p) :
    g.visible = List.range g.size := by
  have hmem : ∀ i : ℕ, i < g.size → i ∈ g.visible := by
    intro i
    induction i using Nat.strong_induction_on with
    | _ i ih =>
      intro hi
      by_cases hir : i = root
      · exact (t.mem_visible_iff hr).mpr (.inl hir)
      · obtain ⟨p, hp, hc⟩ := ha i hir hi
        have hlt := t.lt_of_child hc
        exact (t.mem_visible_iff hr).mpr (.inr ⟨p, ih p hlt (hlt.trans hi), hp, hc⟩)
  have hsize : ∀ i : ℕ, i ∈ g.visible → i < g.size := by
    intro i hi
    rcases (t.mem_visible_iff hr).mp hi with rfl | ⟨p, -, -, hc⟩
    · exact t.size_pos
    · exact (t.child p i hc).1
  have hsorted : g.visible.Pairwise (· < ·) := by
    have hbelow := o.sorted_shownBelow t (n := g.size) (List.pairwise_singleton _ root)
      fun p hp => by rw [List.mem_singleton.mp hp, t.depth_root]
    refine List.pairwise_cons.mpr ⟨fun i hi => ?_, hbelow⟩
    refine Nat.pos_of_ne_zero fun h0 => ?_
    have hdeep := (t.nodup_shownBelow (n := g.size) (List.nodup_singleton root) (d := 0)
      fun p hp => by rw [List.mem_singleton.mp hp, t.depth_root]).2 i hi
    subst h0
    exact absurd hdeep (by rw [show (0 : ℕ) = root from rfl, t.depth_root]; exact lt_irrefl _)
  refine hsorted.eq_of_mem_iff List.pairwise_lt_range fun i => ?_
  rw [List.mem_range]
  exact ⟨hsize i, hmem i⟩

end IsOrderly

end Mediation.Graph
