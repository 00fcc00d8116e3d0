import Mediation.Proofs.Collection.Offspring
import Mediation.Proofs.Collection.Waiting

/-! # The order of discovery

The nodes of a level get their versions in the order in which they were created, and their
children are created after all of them. So a newcomer is younger than every winner it meets.
-/

namespace Mediation.Collection

variable {rules : Rules} {s t : Collection} {i x : ℕ} {ids js : List NodeId}

def IsLatest (s : Collection) (x : NodeId) : Prop :=
  ∀ j : ℕ, (s.node j).version.isSome = true → j ≤ x

theorem IsLatest.of_keeps (h : s.IsLatest x) (hk : Keeps x s t) : t.IsLatest x := fun j hj =>
  (hk.version j hj).elim (h j) Nat.le_of_eq

/-- A node that is the latest to get a version is younger than the winner of its identity. -/
theorem IsLatest.lt_of_winner (h : s.IsLatest x) (hs : s.Sound) (hp : (s.node x).state = .pending)
    {k : Key} (hw : s.winner? k = some i) : i < x := by
  obtain ⟨hc, -, hi⟩ := of_winner?_eq_some hw
  refine Nat.lt_of_le_of_ne (h i (hs.versioned i (hs.ne_root_of_contender hc) hi)) ?_
  rintro rfl
  rw [hp] at hi
  cases hi

/-- Whether nodes are listed in the order of their creation, after all that have a version. -/
structure InOrder (s : Collection) (ids : List NodeId) : Prop where
  sorted : ids.Pairwise (· < ·)
  lt_size : ∀ j ∈ ids, j < s.graph.size
  young : ∀ i : ℕ, (s.node i).version.isSome = true → ∀ j ∈ ids, i < j

namespace InOrder

theorem nil (s : Collection) : s.InOrder [] := ⟨.nil, nofun, nofun⟩

theorem isLatest (h : s.InOrder (x :: ids)) : s.IsLatest x := fun j hj =>
  (h.young j hj x (List.mem_cons_self ..)).le

theorem sublist (h : s.InOrder ids) (hj : js.Sublist ids) : s.InOrder js :=
  ⟨h.sorted.sublist hj, fun j hm => h.lt_size j (hj.subset hm),
    fun i hi j hm => h.young i hi j (hj.subset hm)⟩

theorem of_version (h : s.InOrder ids) (hs : s.graph.size ≤ t.graph.size)
    (hv : ∀ i : ℕ, (t.node i).version.isSome = true → (s.node i).version.isSome = true) :
    t.InOrder ids :=
  ⟨h.sorted, fun j hj => (h.lt_size j hj).trans_le hs, fun i hi => h.young i (hv i hi)⟩

theorem tail (h : s.InOrder (x :: ids)) (hk : Keeps x s t) : t.InOrder ids where
  sorted := h.sorted.of_cons
  lt_size j hj := hk.size ▸ h.lt_size j (List.mem_cons_of_mem _ hj)
  young i hi j hj := by
    rcases hk.version i hi with hi | rfl
    · exact h.young i hi j (List.mem_cons_of_mem _ hj)
    · exact List.rel_of_pairwise_cons h.sorted hj

theorem expand (h : s.InOrder ids) (hx : x < s.graph.size) (d : Descriptor) :
    (s.expand rules x d).2.InOrder (ids ++ (s.expand rules x d).1) := by
  have ha := adds_expand rules hx d
  have hnew : ∀ j ∈ (s.expand rules x d).1, s.graph.size ≤ j := fun j hj =>
    (size_opened d).symm.trans_le (ha.created j hj).1
  exact {
    sorted := List.pairwise_append.mpr
      ⟨h.sorted, ha.sorted, fun i hi j hj => (h.lt_size i hi).trans_le (hnew j hj)⟩
    lt_size j hj := by
      rcases List.mem_append.mp hj with hj | hj
      · exact (h.lt_size j hj).trans_le (size_le_expand hx d)
      · exact (ha.created j hj).2
    young i hi j hj := by
      obtain ⟨his, hi⟩ := version_expand hx d hi
      rcases List.mem_append.mp hj with hj | hj
      · exact h.young i hi j hj
      · exact his.trans_le (hnew j hj) }

end InOrder

theorem prefers_of_elect {p : Policy} {k : Key} (hs : s.Sound) (hp : rules.arbiter = p.arbiter)
    (hix : i < x) (hx : x < s.graph.size) (he : s.elect rules k [min i x, max i x] = .ok x) :
    p.prefers (s.node x) (s.node i) = true := by
  have hid {j : ℕ} (hj : j < s.graph.size) : (s.node j).id = j := hs.tree.id_eq j hj
  rw [min_eq_left hix.le, max_eq_right hix.le] at he
  have hbest : (p.best (s.node i) [s.node x]).id = x := by
    unfold elect at he
    dsimp only at he
    rw [hp] at he
    split at he
    · rename_i choice hc
      split at he
      · cases he
        exact Except.ok.inj hc
      · cases he
    · cases he
  simp only [Policy.best, List.foldl_cons, List.foldl_nil] at hbest
  split at hbest
  · rename_i hpr
    exact hpr
  · rw [hid (hix.trans hx)] at hbest
    exact absurd hbest hix.ne

end Mediation.Collection
