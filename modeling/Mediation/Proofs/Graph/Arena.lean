import Mathlib.Algebra.Order.BigOperators.Group.Finset
import Mediation.Graph.Basic

/-! # Looking up nodes

What a node is after a change of one node, or after a child was attached. Outside
the arena every look-up gives the failed node without parent and children.
-/

namespace Mediation.Graph

variable {g : Graph} {i p : ℕ}

theorem node_of_size_le (h : g.size ≤ i) : g.node i = default := by
  simp [node, get?, Array.getElem?_eq_none h]

theorem children_eq (g : Graph) (i : NodeId) : g.children i = (g.node i).children := by
  unfold children node
  cases g.get? i <;> rfl

theorem node_update (g : Graph) (i j : ℕ) (f : Node → Node) :
    (g.update i f).node j = if i = j ∧ i < g.size then f (g.node j) else g.node j := by
  by_cases h : i = j
  · subst h
    by_cases hi : i < g.size
    · simp [node_update_self hi, hi]
    · rw [if_neg (fun h => hi h.2), node_of_size_le (i := i) (by simpa using hi),
        node_of_size_le (by simpa using hi)]
  · simp [node_update_of_ne g h, h]

theorem lt_size_of_isIncluded (h : g.isIncluded i = true) : i < g.size := by
  by_contra hi
  rw [isIncluded, node_of_size_le (not_lt.mp hi)] at h
  exact absurd h (by decide)

theorem lt_size_of_state (h : (g.node i).state ≠ .failed) : i < g.size := by
  by_contra hi
  exact h (by rw [node_of_size_le (not_lt.mp hi)]; rfl)

theorem isIncluded_iff : g.isIncluded i = true ↔ (g.node i).state = .included := by
  simp [isIncluded, Node.isIncluded]

theorem lt_size_of_mem_children (h : i ∈ g.children p) : p < g.size := by
  by_contra hp
  rw [children_eq, node_of_size_le (not_lt.mp hp)] at h
  cases h

theorem lt_size_of_parent (h : (g.node i).parent = some p) : i < g.size := by
  by_contra hi
  rw [node_of_size_le (not_lt.mp hi)] at h
  cases h

@[simp] theorem size_attach (g : Graph) (p : NodeId) (c : Child) :
    (g.attach p c).size = g.size + 1 := by
  simp [attach, update, size]

theorem node_push (g : Graph) (n : Node) (i : NodeId) :
    Graph.node ⟨g.nodes.push n⟩ i = if i = g.size then n else g.node i := by
  unfold node get? size
  rw [Array.getElem?_push]
  split <;> rfl

theorem node_attach_size (h : p < g.size) (c : Child) :
    (g.attach p c).node g.size = g.childNode p c := by
  rw [attach, node_update, if_neg (fun he => h.ne he.1), node_push, if_pos rfl]

theorem node_attach_self (h : p < g.size) (c : Child) :
    (g.attach p c).node p = { g.node p with children := g.children p ++ [g.size] } := by
  have hs : p < Graph.size ⟨g.nodes.push (g.childNode p c)⟩ := by
    simp only [size, Array.size_push]; exact Nat.lt_succ_of_lt h
  rw [attach, node_update, if_pos ⟨rfl, hs⟩, node_push, if_neg h.ne, children_eq]

theorem node_attach_of_ne (h : i ≠ p) (hi : i ≠ g.size) (c : Child) :
    (g.attach p c).node i = g.node i := by
  rw [attach, node_update, if_neg (fun he => h he.1.symm), node_push, if_neg hi]

end Mediation.Graph
