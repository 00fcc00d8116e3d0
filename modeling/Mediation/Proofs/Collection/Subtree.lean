import Mediation.Proofs.Collection.Decision

/-! # Toppled and detached nodes

Every change that takes winners away is one of two, up to scopes and notes. A
toppled node leaves the result together with all that is below it. A detached node
stays what it is, but loses all that is below it for good.
-/

namespace Mediation

def Node.disabled (n : Node) : Node := { n with state := Collection.disabledState n.state }

namespace Collection

variable {s t : Collection} {i j : ℕ} {st : NodeState}

@[simp] theorem disabledState_disabledState (st : NodeState) :
    disabledState (disabledState st) = disabledState st := by cases st <;> rfl

theorem disabledState_ne_included (st : NodeState) : disabledState st ≠ .included := by
  cases st <;> decide

theorem disabledState_ne_pending (st : NodeState) : disabledState st ≠ .pending := by
  cases st <;> decide

theorem disabledState_eq_self (hp : st ≠ .pending) (hi : st ≠ .included) :
    disabledState st = st := by
  cases st
  · exact absurd rfl hp
  · exact absurd rfl hi
  all_goals rfl

theorem node_of_size_le (h : s.graph.size ≤ j) : s.node j = default := Graph.node_of_size_le h

theorem size_disableBelow : (s.disableBelow i).graph.size = s.graph.size :=
  size_foldl_update _ _

theorem contenders_disableBelow : (s.disableBelow i).contenders = s.contenders :=
  contenders_foldl_update _ _

theorem requeue_disableBelow : (s.disableBelow i).requeue = s.requeue :=
  requeue_foldl_update _ _

theorem node_disableBelow (s : Collection) (i j : ℕ) :
    (s.disableBelow i).node j =
      if j ∈ s.graph.descendants i then (s.node j).disabled else s.node j := by
  have h := node_foldl_update (f := Node.disabled) (s.graph.descendants i) s
    (fun n => by simp [Node.disabled]) j
  refine h.trans ?_
  by_cases hj : j < s.graph.size
  · simp [hj]
  · rw [node_of_size_le (not_lt.mp hj)]
    simp [hj, Node.disabled, disabledState, default]

theorem node_prune (s : Collection) (i j : ℕ) :
    (s.prune i).node j =
      if i = j ∧ i < s.graph.size then { s.node j with children := [], expanded := false }
      else s.node j :=
  node_update _ _ _ _

def mark (s : Collection) (i : NodeId) (st : NodeState) : Collection :=
  s.update i fun n => { n with state := st }

def topple (s : Collection) (i : NodeId) (st : NodeState) : Collection :=
  (s.mark i st).disableBelow i

def detach (s : Collection) (i : NodeId) : Collection := (s.disableBelow i).prune i

theorem descendants_eq (hs : t.graph.size = s.graph.size)
    (hc : ∀ k, (t.node k).children = (s.node k).children) (i : NodeId) :
    t.graph.descendants i = s.graph.descendants i :=
  Graph.descendants_congr hs (fun k => by rw [children_eq, children_eq, hc]) i

theorem size_mark : (s.mark i st).graph.size = s.graph.size := Graph.size_update _ _ _

theorem node_mark (s : Collection) (i j : ℕ) (st : NodeState) :
    (s.mark i st).node j =
      if i = j ∧ i < s.graph.size then { s.node j with state := st } else s.node j :=
  node_update _ _ _ _

theorem view_mark {α : Type} (v : Node → α) (hv : ∀ (n : Node) st, v { n with state := st } = v n) :
    v ((s.mark i st).node j) = v (s.node j) :=
  view_update v (by intro n; exact hv n st) s i j

theorem descendants_mark : (s.mark i st).graph.descendants j = s.graph.descendants j :=
  descendants_eq size_mark (fun _ => view_mark Node.children fun _ _ => rfl) j

theorem size_topple : (s.topple i st).graph.size = s.graph.size :=
  size_disableBelow.trans size_mark

theorem contenders_topple : (s.topple i st).contenders = s.contenders := contenders_disableBelow

theorem node_topple (t : s.graph.IsTree) (hi : i < s.graph.size) (j : ℕ) :
    (s.topple i st).node j =
      if j = i then { s.node i with state := st }
      else if j ∈ s.graph.descendants i then (s.node j).disabled else s.node j := by
  rw [topple, node_disableBelow, descendants_mark, node_mark]
  by_cases hj : j = i
  · subst hj
    have hn : j ∉ s.graph.descendants j := t.not_mem_descendants j
    simp [hi, hn]
  · have hj' : i ≠ j := fun h => hj h.symm
    simp [hj, hj']

theorem size_detach : (s.detach i).graph.size = s.graph.size :=
  (Graph.size_update _ _ _).trans size_disableBelow

theorem contenders_detach (s : Collection) (i : NodeId) :
    (s.detach i).contenders = s.contenders.filter (!(s.graph.descendants i).contains ·) := by
  have hd : (s.disableBelow i).graph.descendants i = s.graph.descendants i :=
    descendants_eq size_disableBelow
      (fun k => view_foldl_update _ s Node.children (by intro _; rfl) k) i
  rw [detach, prune, contenders_update, forget, hd, contenders_disableBelow]

theorem mem_contenders_detach :
    j ∈ (s.detach i).contenders ↔ j ∈ s.contenders ∧ j ∉ s.graph.descendants i := by
  simp [contenders_detach]

theorem node_detach (t : s.graph.IsTree) (hi : i < s.graph.size) (j : ℕ) :
    (s.detach i).node j =
      if j = i then { s.node i with children := [], expanded := false }
      else if j ∈ s.graph.descendants i then (s.node j).disabled else s.node j := by
  rw [detach, node_prune, node_disableBelow, size_disableBelow]
  by_cases hj : j = i
  · subst hj
    have hn : j ∉ s.graph.descendants j := t.not_mem_descendants j
    simp [hi, hn]
  · have hj' : i ≠ j := fun h => hj h.symm
    simp [hj, hj']

theorem size_accept : (s.accept i).graph.size = s.graph.size := Graph.size_update _ _ _

theorem contenders_accept : (s.accept i).contenders = s.contenders := rfl

theorem node_accept (s : Collection) (i j : ℕ) :
    (s.accept i).node j =
      if i = j ∧ i < s.graph.size then { s.node j with state := .included, kept := none }
      else s.node j :=
  node_update _ _ _ _

section View

variable {α : Type} (v : Node → α)

theorem view_disableBelow (hv : ∀ (n : Node) st, v { n with state := st } = v n) :
    v ((s.disableBelow i).node j) = v (s.node j) :=
  view_foldl_update _ s v (by intro n; exact hv n _) j

theorem view_topple (hv : ∀ (n : Node) st, v { n with state := st } = v n) :
    v ((s.topple i st).node j) = v (s.node j) := by
  rw [topple, view_disableBelow v hv, view_mark v hv]

theorem view_detach (hv : ∀ (n : Node) st, v { n with state := st } = v n)
    (hc : ∀ n : Node, v { n with children := [], expanded := false } = v n) :
    v ((s.detach i).node j) = v (s.node j) := by
  have hp : v (((s.disableBelow i).prune i).node j) = v ((s.disableBelow i).node j) := by
    rw [node_prune]
    split
    · exact hc _
    · rfl
  rw [detach, hp, view_disableBelow v hv]

theorem view_accept (hv : ∀ n : Node, v { n with state := .included, kept := none } = v n) :
    v ((s.accept i).node j) = v (s.node j) := view_update v hv s i j

end View

end Collection

end Mediation
