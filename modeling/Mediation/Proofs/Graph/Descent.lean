import Mediation.Proofs.Graph.Arena

/-! # Ancestors and descendants

In a tree the parents come before their children in the arena. So no branch is
longer than the arena, and the walks bounded by its size reach all there is above
and below a node.
-/

namespace Mediation.Graph

variable {g : Graph} {a c p q : ℕ}

/-- An arena in which parents and children name each other, parents first, and every node
continues the trail of its parent. -/
structure IsTree (g : Graph) : Prop where
  size_pos : 0 < g.size
  id_eq : ∀ i < g.size, (g.node i).id = i
  parent_root : (g.node root).parent = none
  depth_root : (g.node root).depth = 0
  trail_root : (g.node root).artifact.trail = [(g.node root).artifact.coordinate]
  parent_lt : ∀ i < g.size, i ≠ root → ∃ p < i, (g.node i).parent = some p
  depth_eq : ∀ i p : ℕ, (g.node i).parent = some p → (g.node i).depth = (g.node p).depth + 1
  trail_eq : ∀ i p : ℕ, (g.node i).parent = some p →
    (g.node i).artifact.trail =
      (g.node p).artifact.trail ++ [(g.node i).artifact.coordinate]
  child : ∀ p c : ℕ, c ∈ g.children p → c < g.size ∧ (g.node c).parent = some p
  children_nodup : ∀ p, (g.children p).Nodup

namespace IsTree

theorem lt_of_parent (t : g.IsTree) (h : (g.node c).parent = some p) : p < c := by
  have hr : c ≠ root := by
    rintro rfl
    rw [t.parent_root] at h
    cases h
  obtain ⟨q, hq, hp⟩ := t.parent_lt c (lt_size_of_parent h) hr
  obtain rfl : q = p := Option.some.inj (hp.symm.trans h)
  exact hq

theorem lt_of_child (t : g.IsTree) (h : c ∈ g.children p) : p < c :=
  t.lt_of_parent (t.child p c h).2

theorem eq_of_children (t : g.IsTree) (hp : c ∈ g.children p) (hq : c ∈ g.children q) : p = q :=
  Option.some.inj ((t.child p c hp).2.symm.trans (t.child q c hq).2)

theorem depth_eq_zero_iff (t : g.IsTree) {i : ℕ} (hi : i < g.size) :
    (g.node i).depth = 0 ↔ i = root := by
  constructor
  · intro h
    by_contra hr
    obtain ⟨p, -, hp⟩ := t.parent_lt i hi hr
    rw [t.depth_eq i p hp] at h
    omega
  · rintro rfl
    exact t.depth_root

theorem trail_length (t : g.IsTree) :
    ∀ i < g.size, (g.node i).artifact.trail.length = (g.node i).depth + 1 := by
  intro i
  induction i using Nat.strong_induction_on with
  | _ i ih =>
    intro hi
    by_cases hr : i = root
    · rw [hr, t.trail_root, t.depth_root]; rfl
    · obtain ⟨p, hp, he⟩ := t.parent_lt i hi hr
      rw [t.trail_eq i p he, t.depth_eq i p he, List.length_append, ih p hp (hp.trans hi)]
      rfl

end IsTree

theorem parent?_eq (g : Graph) (c : NodeId) : g.parent? c = (g.node c).parent := by
  unfold parent? node
  cases g.get? c <;> rfl

theorem IsTree.ancestorsUpTo_eq (t : g.IsTree) {n m : ℕ} (hn : c ≤ n) (hm : c ≤ m) :
    g.ancestorsUpTo n c = g.ancestorsUpTo m c := by
  induction c using Nat.strong_induction_on generalizing n m with
  | _ c ih =>
    cases hp : (g.node c).parent with
    | none =>
      have hnil (k : ℕ) : g.ancestorsUpTo k c = [] := by
        cases k with
        | zero => rfl
        | succ k => simp only [ancestorsUpTo, parent?_eq, hp]
      rw [hnil, hnil]
    | some p =>
      have hlt := t.lt_of_parent hp
      obtain ⟨n, rfl⟩ := Nat.exists_eq_add_of_lt (hlt.trans_le hn)
      obtain ⟨m, rfl⟩ := Nat.exists_eq_add_of_lt (hlt.trans_le hm)
      simp only [ancestorsUpTo, parent?_eq, hp]
      rw [ih p hlt (Nat.le_add_right p n) (Nat.le_add_right p m)]

theorem IsTree.ancestors_of_parent (t : g.IsTree) (hp : (g.node c).parent = some p) :
    g.ancestors c = p :: g.ancestors p := by
  have hc := lt_size_of_parent hp
  have hlt := t.lt_of_parent hp
  obtain ⟨n, hn⟩ := Nat.exists_eq_succ_of_ne_zero (Nat.ne_of_gt t.size_pos)
  have hup : g.ancestors c = p :: g.ancestorsUpTo n p := by
    unfold ancestors
    rw [hn]
    simp only [ancestorsUpTo, parent?_eq, hp]
  rw [hup, ancestors, t.ancestorsUpTo_eq (n := n) (m := g.size) (by omega) (by omega)]

theorem mem_descendantsUpTo_succ {n : ℕ} :
    c ∈ g.descendantsUpTo (n + 1) a ↔
      ∃ b : ℕ, b ∈ g.children a ∧ (c = b ∨ c ∈ g.descendantsUpTo n b) := by
  simp [descendantsUpTo, List.mem_flatMap]

theorem IsTree.lt_of_mem_descendantsUpTo (t : g.IsTree) {n : ℕ}
    (h : c ∈ g.descendantsUpTo n a) : a < c := by
  induction n generalizing a with
  | zero => cases h
  | succ n ih =>
    obtain ⟨b, hb, rfl | hc⟩ := mem_descendantsUpTo_succ.mp h
    · exact t.lt_of_child hb
    · exact (t.lt_of_child hb).trans (ih hc)

theorem IsTree.lt_of_mem_descendants (t : g.IsTree) (h : c ∈ g.descendants a) : a < c :=
  t.lt_of_mem_descendantsUpTo h

theorem IsTree.not_mem_descendants (t : g.IsTree) (a : NodeId) : a ∉ g.descendants a :=
  fun h => lt_irrefl _ (t.lt_of_mem_descendants h)

theorem mem_descendantsUpTo_of_child {n : ℕ} (hp : p = a ∨ p ∈ g.descendantsUpTo n a)
    (hc : c ∈ g.children p) : c ∈ g.descendantsUpTo (n + 1) a := by
  induction n generalizing a with
  | zero =>
    obtain rfl | hp := hp
    · exact mem_descendantsUpTo_succ.mpr ⟨c, hc, .inl rfl⟩
    · cases hp
  | succ n ih =>
    obtain rfl | hp := hp
    · exact mem_descendantsUpTo_succ.mpr ⟨c, hc, .inl rfl⟩
    · obtain ⟨b, hb, hp⟩ := mem_descendantsUpTo_succ.mp hp
      exact mem_descendantsUpTo_succ.mpr ⟨b, hb, .inr (ih hp)⟩

/-- Fuel beyond the distance between the ids changes nothing, as every step raises the id. -/
theorem IsTree.mem_descendantsUpTo_mono (t : g.IsTree) {n m : ℕ}
    (h : c ∈ g.descendantsUpTo n a) (hm : c < a + m + 1) : c ∈ g.descendantsUpTo m a := by
  induction n generalizing a m with
  | zero => cases h
  | succ n ih =>
    obtain ⟨b, hb, hc⟩ := mem_descendantsUpTo_succ.mp h
    have hab := t.lt_of_child hb
    have hbc : b ≤ c :=
      hc.elim (fun he => he ▸ le_rfl) fun hc => (t.lt_of_mem_descendantsUpTo hc).le
    obtain _ | m := m
    · omega
    · exact mem_descendantsUpTo_succ.mpr ⟨b, hb, hc.imp_right fun hc => ih hc (by omega)⟩

/-- A node is below another one if its parent is that node, or is below it. -/
theorem IsTree.mem_descendants_iff (t : g.IsTree) :
    c ∈ g.descendants a ↔ ∃ p : ℕ, c ∈ g.children p ∧ (p = a ∨ p ∈ g.descendants a) := by
  constructor
  · suffices ∀ n, c ∈ g.descendantsUpTo n a → ∃ p : ℕ, c ∈ g.children p ∧
        (p = a ∨ ∃ m, p ∈ g.descendantsUpTo m a) by
      intro h
      obtain ⟨p, hp, rfl | ⟨m, hm⟩⟩ := this _ h
      · exact ⟨p, hp, .inl rfl⟩
      · refine ⟨p, hp, .inr (t.mem_descendantsUpTo_mono hm ?_)⟩
        have := lt_size_of_mem_children hp
        omega
    intro n
    induction n generalizing a with
    | zero => intro h; cases h
    | succ n ih =>
      intro h
      obtain ⟨b, hb, rfl | hc⟩ := mem_descendantsUpTo_succ.mp h
      · exact ⟨a, hb, .inl rfl⟩
      · obtain ⟨p, hp, rfl | ⟨m, hm⟩⟩ := ih hc
        · exact ⟨p, hp, .inr ⟨1, mem_descendantsUpTo_succ.mpr ⟨p, hb, .inl rfl⟩⟩⟩
        · exact ⟨p, hp, .inr ⟨m + 1, mem_descendantsUpTo_succ.mpr ⟨b, hb, .inr hm⟩⟩⟩
  · rintro ⟨p, hc, hp⟩
    refine t.mem_descendantsUpTo_mono (mem_descendantsUpTo_of_child hp hc) ?_
    have := (t.child p c hc).1
    omega

/-- The parent of a node below another one is that node, or is below it as well. -/
theorem IsTree.parent_of_descendant (t : g.IsTree) (h : c ∈ g.descendants a)
    (hp : c ∈ g.children p) : p = a ∨ p ∈ g.descendants a := by
  obtain ⟨q, hq, ha⟩ := t.mem_descendants_iff.mp h
  rwa [t.eq_of_children hp hq]

theorem IsTree.mem_descendants_of_child (t : g.IsTree) (h : c ∈ g.children a) :
    c ∈ g.descendants a :=
  t.mem_descendants_iff.mpr ⟨a, h, .inl rfl⟩

theorem descendants_eq_nil (h : g.children a = []) :
    g.descendants a = [] := by
  rw [List.eq_nil_iff_forall_not_mem]
  intro c hc
  have : ∀ n, c ∉ g.descendantsUpTo n a := by
    rintro (_ | n) hc
    · cases hc
    · simp [mem_descendantsUpTo_succ, h] at hc
  exact this _ hc

end Mediation.Graph
