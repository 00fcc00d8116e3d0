import Mediation.Proofs.Digraph.Walk
import Mathlib.Data.List.Sort
import Mathlib.Data.List.Nodup

/-! # Components

The components split the vertices into the classes of those that lead to each other, and
none leads to a component behind it. A component stands where a walk left the last of its
members, and by then the walk has left all that the component leads to.
-/

namespace Mediation.Digraph

variable {d : Digraph} {v w x y : ℕ} {vs : List ℕ} {C D : List ℕ} {parts : List (List ℕ)}

def Mutual (d : Digraph) (v w : ℕ) : Prop := d.Leads v w ∧ d.Leads w v

namespace Mutual

theorem symm (h : d.Mutual v w) : d.Mutual w v := ⟨h.2, h.1⟩

theorem trans (h : d.Mutual v w) (h' : d.Mutual w x) : d.Mutual v x :=
  ⟨h.1.trans h'.1, h'.2.trans h.2⟩

end Mutual

theorem isMutual_iff (hd : d.IsClosed) (hv : v ∈ d.vertices) (hw : w ∈ d.vertices) :
    d.closure.isMutual v w = true ↔ d.Mutual v w := by
  simp [isMutual, closure, successors_map, hv, hw, mem_reachable_iff hd, Mutual]

/-- A vertex that is left as the last one of its component leads to nothing that is left
after it. -/
theorem not_leads_of_last (hd : d.IsClosed)
    (hl : v :: vs <:+ (d.visitAll d.vertices).left.reverse) (hn : ∀ u ∈ vs, ¬ d.Mutual v u)
    (hw : w ∈ vs) : ¬ d.Leads v w := by
  intro hvw
  have hleft := (Underway.visitAll hd fun v (hv : v ∈ d.vertices) => hv).underway
  obtain ⟨before, hb⟩ := hl
  have hsplit : (d.visitAll d.vertices).left = vs.reverse ++ v :: before.reverse := by
    simpa using (congrArg List.reverse hb).symm
  have hv : v ∈ d.vertices := (left_perm hd).mem_iff.mp (by simp [hsplit])
  -- what the vertex leads to was left up to it, for nothing left later leads back to it
  have hcut : w ∈ v :: before.reverse ∧ d.Leads v w := by
    refine hvw.mem_of_closed (P := fun x => x ∈ v :: before.reverse ∧ d.Leads v x)
      ⟨List.mem_cons_self, .refl v⟩ fun x hx y hy => ?_
    have hvy : d.Leads v y := hx.2.trans (.step hy)
    refine ⟨?_, hvy⟩
    rcases hleft.back v before.reverse ⟨vs.reverse, hsplit.symm⟩ x hx.1 y hy with hm | hyv
    · exact hm
    · have hm := (left_perm hd).mem_iff.mpr (hvy.mem_vertices hd hv)
      rw [hsplit, List.mem_append, List.mem_reverse] at hm
      exact hm.resolve_left fun hm => hn y hm ⟨hvy, hyv⟩
  have hdisj := List.disjoint_of_nodup_append (hsplit ▸ hleft.nodup)
  exact hdisj (List.mem_reverse.mpr hw) hcut.1

section Classes

variable (hd : d.IsClosed) (hvs : ∀ v ∈ vs, v ∈ d.vertices)
include hd

/-- A vertex is passed over if a member of its component is still to come, and else stands for
its component. -/
theorem componentsOf_cons (h : ∀ u ∈ v :: vs, u ∈ d.vertices) :
    (∃ u ∈ vs, d.Mutual v u) ∧ d.closure.componentsOf (v :: vs) = d.closure.componentsOf vs ∨
    (∀ u ∈ vs, ¬ d.Mutual v u) ∧ ∃ C : List ℕ, C.Pairwise (· < ·) ∧
      (∀ w, w ∈ C ↔ w ∈ d.vertices ∧ d.Mutual v w) ∧
      d.closure.componentsOf (v :: vs) = C :: d.closure.componentsOf vs := by
  obtain ⟨hv, hvs⟩ := List.forall_mem_cons.mp h
  have hverts : d.closure.vertices = d.vertices := vertices_map
  have hany : vs.any (d.closure.isMutual v) = true ↔ ∃ u ∈ vs, d.Mutual v u := by
    rw [List.any_eq_true]
    exact exists_congr fun u => and_congr_right fun hu => isMutual_iff hd hv (hvs u hu)
  simp only [componentsOf, hverts]
  split
  · rename_i hm
    exact .inl ⟨hany.mp hm, rfl⟩
  · rename_i hm
    refine .inr ⟨fun u hu hvu => hm (hany.mpr ⟨u, hu, hvu⟩), _, ?_, fun w => ?_, rfl⟩
    · have hle := List.pairwise_mergeSort' (· ≤ ·) (d.vertices.filter (d.closure.isMutual v))
      have hne := (List.mergeSort_perm (d.vertices.filter (d.closure.isMutual v))
        fun a b => decide (a ≤ b)).nodup_iff.mpr (hd.nodup.filter _)
      exact (hle.and hne).imp fun hab => lt_of_le_of_ne hab.1 hab.2
    · rw [List.mem_mergeSort, List.mem_filter]
      exact and_congr_right fun hw => isMutual_iff hd hv hw

include hvs

/-- A component is the class of one of the vertices, in the order of numbers. -/
theorem class_of_mem_componentsOf (hC : C ∈ d.closure.componentsOf vs) :
    C.Pairwise (· < ·) ∧ ∃ v ∈ vs, ∀ w, w ∈ C ↔ w ∈ d.vertices ∧ d.Mutual v w := by
  induction vs with
  | nil => cases hC
  | cons v vs ih =>
    have hrest : C ∈ d.closure.componentsOf vs → C.Pairwise (· < ·) ∧
        ∃ u ∈ v :: vs, ∀ w, w ∈ C ↔ w ∈ d.vertices ∧ d.Mutual u w := by
      intro hC
      obtain ⟨hs, u, hu, hw⟩ := ih (List.forall_mem_cons.mp hvs).2 hC
      exact ⟨hs, u, List.mem_cons_of_mem v hu, hw⟩
    obtain ⟨-, he⟩ | ⟨-, B, hs, hB, he⟩ := componentsOf_cons hd hvs
    · exact hrest (he ▸ hC)
    · rw [he] at hC
      rcases List.mem_cons.mp hC with rfl | hC
      · exact ⟨hs, v, List.mem_cons_self, hB⟩
      · exact hrest hC

theorem exists_mem_componentsOf (hv : v ∈ vs) : ∃ C ∈ d.closure.componentsOf vs, v ∈ C := by
  induction vs generalizing v with
  | nil => cases hv
  | cons u vs ih =>
    obtain ⟨hu, hvs'⟩ := List.forall_mem_cons.mp hvs
    obtain ⟨⟨w, hw, hm⟩, he⟩ | ⟨-, B, -, hB, he⟩ := componentsOf_cons hd hvs
    · rw [he]
      rcases List.mem_cons.mp hv with rfl | hv
      · -- the component comes later, with another member
        obtain ⟨C, hC, hwC⟩ := ih hvs' hw
        obtain ⟨-, z, -, hz⟩ := class_of_mem_componentsOf hd hvs' hC
        exact ⟨C, hC, (hz v).mpr ⟨hu, ((hz w).mp hwC).2.trans hm.symm⟩⟩
      · exact ih hvs' hv
    · rw [he]
      rcases List.mem_cons.mp hv with rfl | hv
      · exact ⟨B, List.mem_cons_self, (hB v).mpr ⟨hu, .refl v, .refl v⟩⟩
      · obtain ⟨C, hC, hvC⟩ := ih hvs' hv
        exact ⟨C, List.mem_cons_of_mem B hC, hvC⟩

/-- No component leads to one behind it when each stands at the last member left. -/
theorem pairwise_componentsOf (hl : vs <:+ (d.visitAll d.vertices).left.reverse) :
    (d.closure.componentsOf vs).Pairwise fun C D => ∀ x ∈ C, ∀ y ∈ D, ¬ d.Leads x y := by
  induction vs with
  | nil => exact .nil
  | cons v vs ih =>
    have hvs' := (List.forall_mem_cons.mp hvs).2
    have hrest := ih hvs' ((List.suffix_cons v vs).trans hl)
    obtain ⟨-, he⟩ | ⟨hn, B, -, hB, he⟩ := componentsOf_cons hd hvs
    · exact he ▸ hrest
    · rw [he]
      refine hrest.cons fun D hD x hx y hy hxy => ?_
      obtain ⟨-, u, hu, hD⟩ := class_of_mem_componentsOf hd hvs' hD
      have hvx := ((hB x).mp hx).2
      exact not_leads_of_last hd hl hn hu (hvx.1.trans (hxy.trans ((hD y).mp hy).2.2))

end Classes

section Components

variable (hd : d.IsClosed)
include hd

theorem mem_vertices_of_left : ∀ v ∈ (d.visitAll d.vertices).left.reverse, v ∈ d.vertices :=
  fun _ hv => (left_perm hd).mem_iff.mp (List.mem_reverse.mp hv)

theorem sorted_of_mem_components (hC : C ∈ d.components) : C.Pairwise (· < ·) :=
  (class_of_mem_componentsOf hd (mem_vertices_of_left hd) hC).1

/-- The members of a component are the vertices that lead to one of them and back. -/
theorem mem_component_iff (hC : C ∈ d.components) (hx : x ∈ C) : y ∈ C ↔ d.Mutual x y := by
  obtain ⟨-, v, hv, hclass⟩ := class_of_mem_componentsOf hd (mem_vertices_of_left hd) hC
  have hvx := (hclass x).mp hx
  constructor
  · intro hy
    exact hvx.2.symm.trans ((hclass y).mp hy).2
  · intro hxy
    exact (hclass y).mpr ⟨hxy.1.mem_vertices hd hvx.1, hvx.2.trans hxy⟩

theorem mem_flatten_components_iff : v ∈ d.components.flatten ↔ v ∈ d.vertices := by
  rw [List.mem_flatten]
  constructor
  · rintro ⟨C, hC, hv⟩
    obtain ⟨-, u, -, hclass⟩ := class_of_mem_componentsOf hd (mem_vertices_of_left hd) hC
    exact ((hclass v).mp hv).1
  · intro hv
    refine exists_mem_componentsOf hd (mem_vertices_of_left hd) ?_
    exact List.mem_reverse.mpr ((left_perm hd).mem_iff.mpr hv)

theorem pairwise_components :
    d.components.Pairwise fun C D => ∀ x ∈ C, ∀ y ∈ D, ¬ d.Leads x y :=
  pairwise_componentsOf hd (mem_vertices_of_left hd) (List.suffix_refl _)

theorem flatten_components_perm : d.components.flatten.Perm d.vertices := by
  refine (List.perm_ext_iff_of_nodup (List.nodup_flatten.mpr ⟨fun C hC => ?_, ?_⟩) hd.nodup).mpr
    fun v => mem_flatten_components_iff hd
  · exact (sorted_of_mem_components hd hC).imp ne_of_lt
  · exact (pairwise_components hd).imp fun h x hx hy => h x hx x hy (.refl x)

end Components

/-- What a search for strongly connected components has to find: all vertices, once each, in the
classes of those that lead to each other, of which none leads to one behind it. The order within
a class is left open. -/
structure IsComponents (d : Digraph) (parts : List (List ℕ)) : Prop where
  perm : parts.flatten.Perm d.vertices
  mem_iff : ∀ C ∈ parts, ∀ x ∈ C, ∀ y, y ∈ C ↔ d.Mutual x y
  pairwise : parts.Pairwise fun C D => ∀ x ∈ C, ∀ y ∈ D, ¬ d.Leads x y

theorem isComponents_components (hd : d.IsClosed) : d.IsComponents d.components where
  perm := flatten_components_perm hd
  mem_iff _ hC _ hx _ := mem_component_iff hd hC hx
  pairwise := pairwise_components hd

namespace IsComponents

variable (h : d.IsComponents parts)
include h

/-- A vertex that leads to one behind it lies on a cycle with it. -/
theorem pairwise_flatten : parts.flatten.Pairwise fun x y => d.Leads x y → d.Leads y x := by
  refine List.pairwise_flatten.mpr ⟨fun C hC => ?_, ?_⟩
  · refine List.pairwise_of_forall_mem_list fun x hx y hy _ => ?_
    exact ((h.mem_iff C hC x hx y).mp hy).2
  · exact h.pairwise.imp fun h x hx y hy hxy => absurd hxy (h x hx y hy)

theorem idxOf_lt (hd : d.IsClosed) (hv : v ∈ d.vertices) (hvw : d.Leads v w)
    (hwv : ¬ d.Leads w v) : parts.flatten.idxOf w < parts.flatten.idxOf v := by
  have hvm := List.idxOf_lt_length_of_mem (h.perm.mem_iff.mpr hv)
  have hwm := List.idxOf_lt_length_of_mem (h.perm.mem_iff.mpr (hvw.mem_vertices hd hv))
  have hp := List.pairwise_iff_getElem.mp h.pairwise_flatten _ _ hvm hwm
  simp only [List.getElem_idxOf] at hp
  rcases Nat.lt_trichotomy (parts.flatten.idxOf w) (parts.flatten.idxOf v) with hlt | heq | hgt
  · exact hlt
  · have he := (List.idxOf_inj (List.idxOf_lt_length_iff.mp hwm)).mp heq
    exact absurd (he ▸ .refl w) hwv
  · exact absurd (hp hgt hvw) hwv

theorem map_mergeSort : d.IsComponents (parts.map (·.mergeSort (· ≤ ·))) where
  perm := by
    refine List.Perm.trans (List.Perm.flatten_congr ?_) h.perm
    exact List.forall₂_map_left_iff.mpr (List.forall₂_same.mpr fun C _ => C.mergeSort_perm _)
  mem_iff := by
    simp only [List.forall_mem_map, List.mem_mergeSort]
    exact h.mem_iff
  pairwise := by
    simp only [List.pairwise_map, List.mem_mergeSort]
    exact h.pairwise

theorem sorted_of_mem (hd : d.IsClosed) (hC : C ∈ parts.map (·.mergeSort (· ≤ ·))) :
    C.Pairwise (· < ·) := by
  have hnodup := (List.nodup_flatten.mp (h.map_mergeSort.perm.nodup_iff.mpr hd.nodup)).1 C hC
  obtain ⟨B, -, rfl⟩ := List.mem_map.mp hC
  exact ((List.pairwise_mergeSort' (· ≤ ·) B).and hnodup).imp fun hab => lt_of_le_of_ne hab.1 hab.2

end IsComponents

end Mediation.Digraph
