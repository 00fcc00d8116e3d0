import Mathlib.Logic.Function.Iterate
import Mathlib.Logic.Relation
import Mediation.Proofs.Graph.Descent

/-! # Searches below a node

A search goes down from a node, depth first: each turn finds the node that is next, whose children
then come before all others. In a tree it ends after as many turns as there are nodes below, and
has found each of them once, behind its parent.
-/

namespace Mediation.Graph

variable {g : Graph} {i j c d p n m : ℕ}

def Below (g : Graph) : NodeId → NodeId → Prop :=
  Relation.TransGen fun p c => c ∈ g.children p

/-- A search under way: the nodes that it has found, and those that it goes on with, the next one
first. -/
structure Search where
  found : List NodeId
  ahead : List NodeId

namespace Search

def start (g : Graph) (i : NodeId) : Search := ⟨[], g.children i⟩

/-- A turn of a search. There is nothing left to do if no node is ahead. -/
def turn (g : Graph) (s : Search) : Search :=
  match s.ahead with
  | [] => s
  | c :: rest => ⟨s.found ++ [c], g.children c ++ rest⟩

end Search

/-- Whether a list has all that is below a node: a search finds it and comes to an end, each node
is listed once and behind its parent, and the node itself is an ancestor of all of them. -/
structure IsSubtree (g : Graph) (i : NodeId) (l : List NodeId) : Prop where
  search : (Search.turn g)^[l.length] (.start g i) = ⟨l, []⟩
  nodup : l.Nodup
  not_mem : i ∉ l
  mem_iff : ∀ j, j ∈ l ↔ g.Below i j
  ancestor : ∀ j ∈ l, i ∈ g.ancestors j
  parent_first : ∀ l₁ j l₂, l = l₁ ++ j :: l₂ →
    ∃ p ∈ i :: l₁, j ∈ g.children p ∧ (g.node j).parent = some p

/-- What holds of a node if it holds of its children holds of all nodes. -/
theorem IsTree.child_induction (t : g.IsTree) {P : ℕ → Prop}
    (h : ∀ i : ℕ, (∀ c ∈ g.children i, P c) → P i) (i : ℕ) : P i := by
  induction hk : g.size - i using Nat.strong_induction_on generalizing i with
  | _ k ih =>
    refine h i fun c hc => ih (g.size - c) ?_ c rfl
    have hlt := t.lt_of_child hc
    have hsize := (t.child i c hc).1
    omega

theorem descendantsUpTo_of_size_le (h : g.size ≤ i) (n : ℕ) : g.descendantsUpTo n i = [] := by
  cases n <;> simp [descendantsUpTo, children_eq, node_of_size_le h, default]

theorem IsTree.descendantsUpTo_eq (t : g.IsTree) (hn : g.size ≤ i + n) (hm : g.size ≤ i + m) :
    g.descendantsUpTo n i = g.descendantsUpTo m i := by
  induction n generalizing i m with
  | zero =>
    have hi : g.size ≤ i := hn
    rw [descendantsUpTo_of_size_le hi, descendantsUpTo_of_size_le hi]
  | succ n ih =>
    cases m with
    | zero =>
      have hi : g.size ≤ i := hm
      rw [descendantsUpTo_of_size_le hi, descendantsUpTo_of_size_le hi]
    | succ m =>
      refine List.flatMap_congr fun c hc => ?_
      have hlt := t.lt_of_child hc
      rw [ih (m := m) (by omega) (by omega)]

/-- A node is followed by all that is below it before its next sibling comes. -/
theorem IsTree.descendants_eq_flatMap (t : g.IsTree) (i : NodeId) :
    g.descendants i = (g.children i).flatMap fun c => c :: g.descendants c := by
  obtain ⟨n, hn⟩ := Nat.exists_eq_succ_of_ne_zero (Nat.ne_of_gt t.size_pos)
  have hdown : g.descendants i = g.descendantsUpTo (n + 1) i := by rw [descendants, hn]
  rw [hdown, descendantsUpTo]
  refine List.flatMap_congr fun c hc => ?_
  have hlt := t.lt_of_child hc
  rw [descendants, t.descendantsUpTo_eq (n := n) (m := g.size) (by omega) (by omega)]

theorem IsTree.mem_descendants_iff_below (t : g.IsTree) : j ∈ g.descendants i ↔ g.Below i j := by
  constructor
  · intro h
    induction j using Nat.strong_induction_on with
    | _ j ih =>
      obtain ⟨p, hj, rfl | hp⟩ := t.mem_descendants_iff.mp h
      · exact .single hj
      · exact .tail (ih p (t.lt_of_child hj) hp) hj
  · intro h
    induction h with
    | single hj => exact t.mem_descendants_of_child hj
    | tail _ hj ih => exact t.mem_descendants_iff.mpr ⟨_, hj, .inr ih⟩

theorem IsTree.eq_of_siblings (t : g.IsTree) (hc : c ∈ g.children i) (hd : d ∈ g.children i)
    (hjc : j ∈ c :: g.descendants c) (hjd : j ∈ d :: g.descendants d) : c = d := by
  have hnot {a b : ℕ} (ha : a ∈ g.children i) (hb : b ∈ g.children i) : b ∉ g.descendants a := by
    intro h
    have hlt := t.lt_of_child ha
    rcases t.parent_of_descendant h hb with rfl | h
    · exact lt_irrefl _ hlt
    · exact lt_asymm hlt (t.lt_of_mem_descendants h)
  induction j using Nat.strong_induction_on with
  | _ j ih =>
    rcases List.mem_cons.mp hjc with rfl | hjc
    · rcases List.mem_cons.mp hjd with rfl | hjd
      · rfl
      · exact absurd hjd (hnot hd hc)
    · rcases List.mem_cons.mp hjd with rfl | hjd
      · exact absurd hjc (hnot hc hd)
      · obtain ⟨p, hp, hpc⟩ := t.mem_descendants_iff.mp hjc
        have hpd := t.parent_of_descendant hjd hp
        exact ih p (t.lt_of_child hp) (List.mem_cons.mpr hpc) (List.mem_cons.mpr hpd)

theorem IsTree.nodup_descendants (t : g.IsTree) (i : NodeId) : (g.descendants i).Nodup := by
  induction i using t.child_induction with
  | _ i ih =>
    rw [t.descendants_eq_flatMap]
    refine List.nodup_flatMap.mpr ⟨fun c hc => ?_, ?_⟩
    · exact List.nodup_cons.mpr ⟨t.not_mem_descendants c, ih c hc⟩
    · refine (t.children_nodup i).imp_of_mem fun {c d} hc hd hne j hjc hjd => ?_
      exact hne (t.eq_of_siblings hc hd hjc hjd)

theorem IsTree.mem_ancestors (t : g.IsTree) (h : j ∈ g.descendants i) : i ∈ g.ancestors j := by
  induction j using Nat.strong_induction_on with
  | _ j ih =>
    obtain ⟨p, hj, hp⟩ := t.mem_descendants_iff.mp h
    rw [t.ancestors_of_parent (t.child p j hj).2]
    rcases hp with rfl | hp
    · exact List.mem_cons_self
    · exact List.mem_cons_of_mem p (ih p (t.lt_of_child hj) hp)

namespace Search

variable {s : Search}

/-- Whether a search below a node has found all nodes behind their parents, and goes on with
children of what it has found. -/
structure InOrder (g : Graph) (i : NodeId) (s : Search) : Prop where
  found : ∀ l₁ j l₂, s.found = l₁ ++ j :: l₂ → ∃ p ∈ i :: l₁, j ∈ g.children p
  ahead : ∀ j ∈ s.ahead, ∃ p ∈ i :: s.found, j ∈ g.children p

theorem inOrder_start (g : Graph) (i : NodeId) : InOrder g i (start g i) where
  found l₁ j l₂ h := by simp [start] at h
  ahead j hj := ⟨i, List.mem_cons_self, hj⟩

theorem inOrder_turn (h : InOrder g i s) : InOrder g i (s.turn g) := by
  obtain ⟨found, ahead⟩ := s
  cases ahead with
  | nil => exact h
  | cons c rest =>
    constructor
    · intro l₁ j l₂ hl
      change found ++ [c] = l₁ ++ j :: l₂ at hl
      rcases List.eq_nil_or_concat l₂ with rfl | ⟨l₂, b, rfl⟩
      · obtain ⟨rfl, rfl⟩ : found = l₁ ∧ c = j := by simpa using hl
        exact h.ahead c List.mem_cons_self
      · rw [List.concat_eq_append, ← List.cons_append, ← List.append_assoc] at hl
        exact h.found l₁ j l₂ (List.append_inj_left' hl rfl)
    · intro j hj
      rcases List.mem_append.mp hj with hj | hj
      · exact ⟨c, by simp [turn], hj⟩
      · obtain ⟨p, hp, hj⟩ := h.ahead j (List.mem_cons_of_mem c hj)
        exact ⟨p, List.mem_append_left [c] hp, hj⟩

theorem inOrder_turns (h : InOrder g i s) (n : ℕ) : InOrder g i ((turn g)^[n] s) :=
  Function.Iterate.rec (InOrder g i) h (fun _ => inOrder_turn) n

/-- A search finds siblings and all that is below them before it goes on with what was ahead. -/
theorem turns_siblings {cs : List NodeId} (h : ∀ c ∈ cs, ∀ found ahead,
      (turn g)^[(g.descendants c).length] ⟨found, g.children c ++ ahead⟩ =
        ⟨found ++ g.descendants c, ahead⟩) (found ahead : List NodeId) :
    (turn g)^[(cs.flatMap fun c => c :: g.descendants c).length] ⟨found, cs ++ ahead⟩ =
      ⟨found ++ cs.flatMap fun c => c :: g.descendants c, ahead⟩ := by
  induction cs generalizing found with
  | nil => simp
  | cons c cs ih =>
    have hc := h c List.mem_cons_self (found ++ [c]) (cs ++ ahead)
    have hcs := ih (fun d hd => h d (List.mem_cons_of_mem c hd)) (found ++ [c] ++ g.descendants c)
    have hlength : ((c :: cs).flatMap fun c => c :: g.descendants c).length =
        (cs.flatMap fun c => c :: g.descendants c).length + ((g.descendants c).length + 1) := by
      simp only [List.flatMap_cons, List.length_append, List.length_cons]
      omega
    have hturn : turn g ⟨found, c :: cs ++ ahead⟩ =
        ⟨found ++ [c], g.children c ++ (cs ++ ahead)⟩ := rfl
    rw [hlength, Function.iterate_add_apply, Function.iterate_succ_apply, hturn, hc, hcs]
    simp

theorem turns_descendants (t : g.IsTree) (i : NodeId) (found ahead : List NodeId) :
    (turn g)^[(g.descendants i).length] ⟨found, g.children i ++ ahead⟩ =
      ⟨found ++ g.descendants i, ahead⟩ := by
  induction i using t.child_induction generalizing found ahead with
  | _ i ih =>
    rw [t.descendants_eq_flatMap]
    exact turns_siblings ih found ahead

end Search

theorem IsTree.isSubtree (t : g.IsTree) (i : NodeId) : g.IsSubtree i (g.descendants i) := by
  have hsearch : (Search.turn g)^[(g.descendants i).length] (.start g i) =
      ⟨g.descendants i, []⟩ := by
    simpa [Search.start] using Search.turns_descendants t i [] []
  refine ⟨hsearch, t.nodup_descendants i, t.not_mem_descendants i,
    fun j => t.mem_descendants_iff_below, fun j => t.mem_ancestors, fun l₁ j l₂ hl => ?_⟩
  have horder := Search.inOrder_turns (Search.inOrder_start g i) (g.descendants i).length
  rw [hsearch] at horder
  obtain ⟨p, hp, hj⟩ := horder.found l₁ j l₂ hl
  exact ⟨p, hp, hj, (t.child p j hj).2⟩

end Mediation.Graph
